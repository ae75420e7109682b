import ApiEvolution.Pairing.BucketIndex

/-!
# Buckets in agreement with their list

An index is `Indexed` by a hash of its entries if each bucket lists, in increasing order, the
positions of the entries with its hash. Adding an entry under its hash keeps that (`indexed_push`),
and so does changing an entry that keeps its hash (`indexed_modify`). As long as it holds, looking
into one bucket finds what the search through the whole list finds (`position?_eq_scan?`).

Whatever the hashes are, the buckets part the positions of the entries (`Parted`).
-/

namespace ApiEvolution.BucketIndex

variable {α : Type} {hashOf : α → UInt64} {b : BucketIndex α}

/-- The positions of the entries with the given hash. -/
def positionsOf (hashOf : α → UInt64) (xs : List α) (hash : UInt64) : List Nat :=
  (List.range xs.length).filter fun i => xs[i]?.any (hashOf · == hash)

/-- Each bucket lists the positions of the entries with its hash. -/
def Indexed (hashOf : α → UInt64) (b : BucketIndex α) : Prop :=
  ∀ hash, b.bucket hash = positionsOf hashOf b.entries hash

theorem indexed_empty : Indexed hashOf (.empty : BucketIndex α) := fun _ => rfl

theorem positionsOf_append (xs : List α) (x : α) (hash : UInt64) :
    positionsOf hashOf (xs ++ [x]) hash =
      positionsOf hashOf xs hash ++ if hashOf x == hash then [xs.length] else [] := by
  have hbefore : (List.range xs.length).filter (fun i => (xs ++ [x])[i]?.any (hashOf · == hash)) =
      positionsOf hashOf xs hash := by
    refine List.filter_congr fun i hi => ?_
    rw [List.getElem?_append_left (List.mem_range.1 hi)]
  rw [positionsOf, List.length_append, List.length_singleton, List.range_succ, List.filter_append,
    hbefore]
  congr 1
  simp only [List.filter_cons, List.filter_nil, List.getElem?_concat_length, Option.any_some]

/-- A new entry goes into the bucket of its hash. -/
theorem indexed_push (h : b.Indexed hashOf) (x : α) : (b.push (hashOf x) x).Indexed hashOf := by
  intro hash
  have hentries : (b.push (hashOf x) x).entries = b.entries ++ [x] := rfl
  rw [hentries, positionsOf_append, ← h hash]
  by_cases e : hash = hashOf x
  · rw [e, bucket_push_same]
    simp
  · rw [bucket_push_of_ne _ e]
    simp [Ne.symm e]

/-- An entry may be changed in place as long as its hash stays. -/
theorem indexed_modify (h : b.Indexed hashOf) {i : Nat} {f : α → α}
    (hf : ∀ x, b.entries[i]? = some x → hashOf (f x) = hashOf x) :
    (b.modify i f).Indexed hashOf := by
  intro hash
  have hbucket : (b.modify i f).bucket hash = b.bucket hash := rfl
  have hentries : (b.modify i f).entries = b.entries.modify i f := rfl
  rw [hbucket, hentries, h hash, positionsOf, positionsOf, List.length_modify]
  refine List.filter_congr fun j _ => ?_
  rw [List.getElem?_modify]
  by_cases e : i = j
  · subst e
    cases hx : b.entries[i]? with
    | none => rfl
    | some x => simp [hf x hx]
  · simp [e]

/-- The first position whose entry is looked for is what a scan finds. -/
theorem find?_range_eq_findIdx? (xs : List α) (wanted : α → Bool) :
    (List.range xs.length).find? (fun i => xs[i]?.any wanted) = xs.findIdx? wanted := by
  refine Option.ext fun i => ?_
  rw [List.find?_range_eq_some, List.findIdx?_eq_some_iff_getElem]
  constructor
  · rintro ⟨hi, hlt, hbefore⟩
    have hlt := List.mem_range.1 hlt
    refine ⟨hlt, by simpa [hlt] using hi, fun j hj => ?_⟩
    have hj' := hbefore j hj
    simpa [Nat.lt_trans hj hlt] using hj'
  · rintro ⟨hlt, hi, hbefore⟩
    refine ⟨by simpa [hlt] using hi, List.mem_range.2 hlt, fun j hj => ?_⟩
    simpa [Nat.lt_trans hj hlt] using hbefore j hj

/-- Looking into a bucket finds the first entry of its hash that is looked for. -/
theorem position?_eq_scan?_and (h : b.Indexed hashOf) (hash : UInt64) (wanted : α → Bool) :
    b.position? hash wanted = b.scan? fun x => hashOf x == hash && wanted x := by
  rw [position?, h hash, positionsOf, List.find?_filter, scan?, ← find?_range_eq_findIdx?]
  congr 1
  funext i
  rw [Bool.eq_iff_iff]
  cases b.entries[i]? <;> simp

/-- The bucket in which an entry is looked for has all entries that are looked for. -/
theorem position?_eq_scan? (h : b.Indexed hashOf) {hash : UInt64} {wanted : α → Bool}
    (hw : ∀ x ∈ b.entries, wanted x → hashOf x = hash) :
    b.position? hash wanted = b.scan? wanted := by
  rw [position?_eq_scan?_and h, scan?, scan?, ← find?_range_eq_findIdx?, ← find?_range_eq_findIdx?]
  congr 1
  funext i
  cases hx : b.entries[i]? with
  | none => rfl
  | some x =>
    have hhash := hw x (List.mem_of_getElem? hx)
    cases hwx : wanted x with
    | false => simp [hwx]
    | true => simp [hwx, hhash hwx]

/-! ## Every entry -/

/-- What the change of one entry leaves alone is the same for all entries. -/
theorem map_modify_eq {β : Type} {xs : List α} {i : Nat} {f : α → α} {g : α → β}
    (h : ∀ x, xs[i]? = some x → g (f x) = g x) : (xs.modify i f).map g = xs.map g := by
  refine List.ext_getElem? fun j => ?_
  rw [List.getElem?_map, List.getElem?_map, List.getElem?_modify]
  by_cases e : i = j
  · subst e
    cases hx : xs[i]? with
    | none => rfl
    | some x => simp [h x hx]
  · simp [e]

/-- What holds of all entries holds of them still when one is changed or added; it is one that is
looked for that is changed. -/
theorem forall_upsert {P : α → Prop} {hash : UInt64} {wanted : α → Bool} {change : α → α} {new : α}
    (h : ∀ x ∈ b.entries, P x) (hchange : ∀ x, P x → wanted x → P (change x)) (hnew : P new) :
    ∀ x ∈ (b.upsert hash wanted change new).entries, P x := by
  intro x hx
  unfold upsert at hx
  split at hx
  · next i hi =>
    have hwanted := List.find?_some (p := fun i => b.entries[i]?.any wanted) hi
    obtain ⟨j, hj⟩ := List.mem_iff_getElem?.1 hx
    rw [modify, List.getElem?_modify] at hj
    obtain ⟨y, hy, rfl⟩ := Option.map_eq_some_iff.1 hj
    have hmem := h y (List.mem_of_getElem? hy)
    split
    · next e =>
      rw [e, hy] at hwanted
      exact hchange y hmem hwanted
    · exact hmem
  · rcases List.mem_append.1 hx with hx | hx
    · exact h x hx
    · rw [List.mem_singleton.1 hx]
      exact hnew

variable {f : α → α}

theorem position?_map {hash : UInt64} {wanted wanted' : α → Bool}
    (h : ∀ x ∈ b.entries, wanted' (f x) = wanted x) :
    (b.map f).position? hash wanted' = b.position? hash wanted := by
  have hany (i : Nat) : (b.map f).entries[i]?.any wanted' = b.entries[i]?.any wanted := by
    rw [map, List.getElem?_map]
    cases hx : b.entries[i]? with
    | none => rfl
    | some x => exact h x (List.mem_of_getElem? hx)
  rw [position?, funext hany]
  rfl

/-- An entry is changed or added in step with what is made of the entries. -/
theorem upsert_map {hash : UInt64} {wanted wanted' : α → Bool} {change change' : α → α} {new : α}
    (hwanted : ∀ x ∈ b.entries, wanted' (f x) = wanted x)
    (hchange : ∀ x, change' (f x) = f (change x)) :
    (b.map f).upsert hash wanted' change' (f new) = (b.upsert hash wanted change new).map f := by
  rw [upsert, upsert, position?_map hwanted]
  cases b.position? hash wanted with
  | none => simp only [push, map, List.map_append, List.map_singleton, List.length_map]
  | some i =>
    have hentries : (b.entries.map f).modify i change' = (b.entries.modify i change).map f := by
      refine List.ext_getElem? fun j => ?_
      simp only [List.getElem?_modify, List.getElem?_map]
      cases b.entries[j]? with
      | none => rfl
      | some x =>
        simp only [Option.map_some, Option.map_eq_map]
        split
        · rw [hchange]
        · rfl
    simp only [modify, map, hentries]

/-! ## Buckets as a partition -/

/-- The buckets have different hashes, and each position is in one of them; in each bucket they are
in increasing order. -/
structure Parted (b : BucketIndex α) : Prop where
  hashes : (b.buckets.map (·.1)).Nodup
  inhabited : ∀ e ∈ b.buckets, e.2 ≠ []
  positions : (b.buckets.flatMap (·.2)).Perm (List.range b.entries.length)
  increasing : ∀ e ∈ b.buckets, e.2.Pairwise (· < ·)

theorem parted_empty : (.empty : BucketIndex α).Parted :=
  ⟨.nil, nofun, .nil, nofun⟩

/-- A position goes into the bucket of its hash, or into a new one. -/
theorem addPosition_cases (hash : UInt64) (i : Nat) (bs : List (UInt64 × List Nat)) :
    (hash ∉ bs.map (·.1) ∧ addPosition hash i bs = bs ++ [(hash, [i])]) ∨
      ∃ before ps after, bs = before ++ (hash, ps) :: after ∧
        addPosition hash i bs = before ++ (hash, ps ++ [i]) :: after := by
  induction bs with
  | nil => exact .inl ⟨List.not_mem_nil, rfl⟩
  | cons b bs ih =>
    obtain ⟨h, ps⟩ := b
    rw [addPosition]
    by_cases e : h = hash
    · subst e
      rw [if_pos (beq_self_eq_true h)]
      exact .inr ⟨[], ps, bs, rfl, rfl⟩
    · rw [if_neg (by simpa using e)]
      rcases ih with ⟨hnew, hadd⟩ | ⟨before, qs, after, hbs, hadd⟩
      · refine .inl ⟨?_, by rw [hadd, List.cons_append]⟩
        rw [List.map_cons, List.mem_cons, not_or]
        exact ⟨Ne.symm e, hnew⟩
      · exact .inr ⟨(h, ps) :: before, qs, after, by rw [hbs, List.cons_append],
          by rw [hadd, List.cons_append]⟩

theorem nodup_addPosition {hash : UInt64} {bs : List (UInt64 × List Nat)}
    (h : (bs.map (·.1)).Nodup) (i : Nat) : ((addPosition hash i bs).map (·.1)).Nodup := by
  rcases addPosition_cases hash i bs with ⟨hnew, hadd⟩ | ⟨before, ps, after, rfl, hadd⟩
  · rw [hadd, List.map_append, List.map_singleton, List.nodup_append]
    refine ⟨h, by simp, fun k hk k' hk' => ?_⟩
    rw [List.mem_singleton.1 hk']
    rintro rfl
    exact hnew hk
  · rw [hadd]
    simpa using h

theorem flatMap_addPosition (hash : UInt64) (i : Nat) (bs : List (UInt64 × List Nat)) :
    ((addPosition hash i bs).flatMap (·.2)).Perm (bs.flatMap (·.2) ++ [i]) := by
  rcases addPosition_cases hash i bs with ⟨-, hadd⟩ | ⟨before, ps, after, rfl, hadd⟩
  · rw [hadd, List.flatMap_append, List.flatMap_singleton]
  · rw [hadd, List.flatMap_append, List.flatMap_append, List.flatMap_cons, List.flatMap_cons,
      List.append_assoc, List.append_assoc, List.append_assoc]
    exact (List.perm_append_comm.append_left ps).append_left _

/-- What holds of all buckets after a position was added to one of them. -/
theorem forall_addPosition {P Q : List Nat → Prop} {hash : UInt64} {i : Nat}
    {bs : List (UInt64 × List Nat)} (h : ∀ e ∈ bs, P e.2) (hkept : ∀ ps, P ps → Q ps)
    (hold : ∀ ps, P ps → Q (ps ++ [i])) (hnew : Q [i]) : ∀ e ∈ addPosition hash i bs, Q e.2 := by
  intro e he
  rcases addPosition_cases hash i bs with ⟨-, hadd⟩ | ⟨before, ps, after, rfl, hadd⟩
  · rw [hadd] at he
    rcases List.mem_append.1 he with he | he
    · exact hkept _ (h e he)
    · rw [List.mem_singleton.1 he]
      exact hnew
  · rw [hadd] at he
    rcases List.mem_append.1 he with he | he
    · exact hkept _ (h e (List.mem_append_left _ he))
    · rcases List.mem_cons.1 he with rfl | he
      · exact hold ps (h (hash, ps) (List.mem_append_right _ List.mem_cons_self))
      · exact hkept _ (h e (List.mem_append_right _ (List.mem_cons_of_mem _ he)))

/-- The position of a new entry is greater than all others, so it is put at the end of a bucket. -/
theorem Parted.push (h : b.Parted) (hash : UInt64) (x : α) : (b.push hash x).Parted := by
  have hbuckets : ∀ e ∈ b.buckets, e.2.Pairwise (· < ·) ∧ ∀ i ∈ e.2, i < b.entries.length :=
    fun e he => ⟨h.increasing e he, fun i hi =>
      List.mem_range.1 (h.positions.subset (List.mem_flatMap.2 ⟨e, he, hi⟩))⟩
  refine ⟨nodup_addPosition h.hashes _, ?_, ?_, ?_⟩
  · exact forall_addPosition (P := (· ≠ [])) h.inhabited (fun _ hps => hps)
      (fun _ _ => List.concat_ne_nil _ _) (List.cons_ne_nil _ _)
  · rw [BucketIndex.push, List.length_append, List.length_singleton, List.range_succ]
    exact (flatMap_addPosition ..).trans (h.positions.append_right _)
  · refine forall_addPosition (P := fun ps => ps.Pairwise (· < ·) ∧ ∀ i ∈ ps, i < b.entries.length)
      (Q := List.Pairwise (· < ·)) hbuckets (fun _ hps => hps.1) (fun ps hps => ?_)
      (List.pairwise_singleton _ _)
    refine List.pairwise_append.2 ⟨hps.1, List.pairwise_singleton _ _, fun i hi j hj => ?_⟩
    rw [List.mem_singleton.1 hj]
    exact hps.2 i hi

theorem Parted.upsert (h : b.Parted) (hash : UInt64) (wanted : α → Bool) (change : α → α)
    (new : α) : (b.upsert hash wanted change new).Parted := by
  rw [BucketIndex.upsert]
  cases b.position? hash wanted with
  | none => exact h.push hash new
  | some i =>
    have hlength : (b.modify i change).entries.length = b.entries.length := List.length_modify ..
    exact ⟨h.hashes, h.inhabited, hlength ▸ h.positions, h.increasing⟩

end ApiEvolution.BucketIndex
