import Mathlib.Data.List.Perm.Subperm
import ApiEvolution.Proofs.Identity.Laws
import ApiEvolution.Proofs.Pairing.OuterJoin

/-!
# Which members the nodes hold

The members of a type are put into the nodes one after the other, each into the first node it
meets, in place of what is there on its side. So on no side is there more than was put there, and
everything is still there exactly if no two members of a side collide. The main statement is
`SurfaceTree.members_ofBuilds`.
-/

namespace ApiEvolution

/-! ## Members that meet -/

namespace Selection

variable (s : Selection)

/-- The members of a type that take part. -/
def included (t : TypeDefinition) : List Member :=
  t.members.filter s.includesMember

/-- The member is taken for the same declaration as `p`, which stands for a node. -/
def meets (p m : Member) : Bool :=
  s.hash p.fingerprint == s.hash m.fingerprint && s.comparer.sameMember p m

/-- The first of the members that `m` meets. -/
def home? (others : List Member) (m : Member) : Option Nat :=
  others.findIdx? (s.meets · m)

/-- The members go into one node: both meet the same one first, or the second one meets the first
and neither meets another one. -/
def Collide (others : List Member) (m m' : Member) : Prop :=
  s.home? others m = s.home? others m' ∧ (s.home? others m = none → s.meets m m')

instance (others : List Member) (m m' : Member) : Decidable (s.Collide others m m') :=
  inferInstanceAs (Decidable (_ ∧ _))

theorem meets_self (m : Member) : s.meets m m := by
  simp [meets, s.comparer.sameMember_self]

theorem lt_of_home? {s : Selection} {others : List Member} {m : Member} {i : Nat}
    (h : s.home? others m = some i) : i < others.length :=
  (List.findIdx?_eq_some_iff_getElem.1 h).1

end Selection

/-! ## The nodes as a list -/

/-- What is on a side of the nodes. -/
def membersOn (side : Side) (ps : List MemberNode) : List Member :=
  ps.filterMap (·.get? side)

def TypeNode.membersOn (n : TypeNode) (side : Side) : List Member :=
  ApiEvolution.membersOn side n.members.entries

/-- Puts a member into the first node it meets, or into a new one. -/
def Selection.place (s : Selection) (side : Side) (ps : List MemberNode) (m : Member) :
    List MemberNode :=
  match s.home? (ps.map Pair.representative) m with
  | some i => ps.modify i (·.set m side)
  | none => ps ++ [.single m side]

def Selection.memberHash (s : Selection) (p : MemberNode) : UInt64 :=
  s.hash p.representative.fingerprint

theorem Pair.representative_set {α : Type} (p : Pair α) (x : α) (side : Side) :
    (p.set x side).representative = x ∨ (p.set x side).representative = p.representative := by
  cases side with
  | left => cases p <;> exact .inl rfl
  | right =>
    cases p with
    | rightOnly y => exact .inl rfl
    | leftOnly y => exact .inr rfl
    | both y z => exact .inr rfl

namespace TypeNode

variable {s : Selection} {side : Side} {b : BucketIndex MemberNode}

/-- The first node of the bucket that is looked for is the first of all that the member meets. -/
theorem addMember_eq (h : b.Indexed s.memberHash) (m : Member) :
    (addMember s side b m).entries = s.place side b.entries m ∧
      (addMember s side b m).Indexed s.memberHash := by
  have hposition : b.position? (s.hash m.fingerprint)
      (fun p => s.comparer.sameMember p.representative m) =
        s.home? (b.entries.map Pair.representative) m := by
    rw [Selection.home?, List.findIdx?_map]
    exact BucketIndex.position?_eq_scan?_and h _ _
  rw [addMember, BucketIndex.upsert, hposition, Selection.place]
  cases hi : s.home? (b.entries.map Pair.representative) m with
  | some i =>
    refine ⟨rfl, BucketIndex.indexed_modify h fun p hp => ?_⟩
    obtain ⟨hlt, hmeets, -⟩ := List.findIdx?_eq_some_iff_getElem.1 hi
    obtain ⟨-, rfl⟩ := List.getElem?_eq_some_iff.1 hp
    rw [List.getElem_map, Selection.meets, Bool.and_eq_true, beq_iff_eq] at hmeets
    rcases Pair.representative_set b.entries[i] m side with hrep | hrep
    · rw [Selection.memberHash, Selection.memberHash, hrep, hmeets.1]
    · rw [Selection.memberHash, Selection.memberHash, hrep]
  | none =>
    have hhash : s.hash m.fingerprint = s.memberHash (.single m side) := by cases side <;> rfl
    refine ⟨rfl, ?_⟩
    rw [hhash]
    exact BucketIndex.indexed_push h _

theorem addMembers_eq (h : b.Indexed s.memberHash) (t : TypeDefinition) :
    (addMembers s side t b).entries = (s.included t).foldl (s.place side) b.entries ∧
      (addMembers s side t b).Indexed s.memberHash := by
  rw [addMembers, Selection.included]
  induction t.members.filter s.includesMember generalizing b with
  | nil => exact ⟨rfl, h⟩
  | cons m ms ih =>
    have ⟨hentries, hindexed⟩ : (addMember s side b m).entries = s.place side b.entries m ∧
        (addMember s side b m).Indexed s.memberHash := addMember_eq h m
    obtain ⟨hentries', hindexed'⟩ := ih hindexed
    exact ⟨by rw [List.foldl_cons, hentries', hentries, List.foldl_cons], hindexed'⟩

/-- What is registered puts its members into the nodes, one after the other. -/
theorem gather_members {regs : List (Side × Definition)} {n : TypeNode}
    (h : gather s regs = some n) :
    n.members.entries =
        regs.foldl (fun ps r => (s.included r.2.type).foldl (s.place r.1) ps) [] ∧
      n.members.Indexed s.memberHash := by
  induction regs using List.reverseRecOn generalizing n with
  | nil => cases h
  | append_singleton regs r ih =>
    rw [gather_concat, Option.some.injEq] at h
    subst h
    rw [List.foldl_append, List.foldl_cons, List.foldl_nil]
    cases hregs : gather s regs with
    | none =>
      obtain rfl := eq_nil_of_gather hregs
      exact addMembers_eq BucketIndex.indexed_empty r.2.type
    | some n =>
      obtain ⟨hentries, hindexed⟩ := ih hregs
      rw [← hentries]
      exact addMembers_eq hindexed r.2.type

end TypeNode

/-! ## Putting one member -/

/-- What is on a side of the nodes, with one place of it brought out, before and after that place is
taken. -/
theorem membersOn_modify (side : Side) {ps : List MemberNode} {i : Nat} (hi : i < ps.length)
    (m : Member) : ∃ before after : List Member,
      membersOn side ps = before ++ (ps[i].get? side).toList ++ after ∧
      membersOn side (ps.modify i (·.set m side)) = before ++ [m] ++ after := by
  refine ⟨membersOn side (ps.take i), membersOn side (ps.drop (i + 1)), ?_, ?_⟩
  · conv_lhs => rw [← List.take_append_drop i ps, List.drop_eq_getElem_cons hi]
    rw [membersOn, List.filterMap_append, List.filterMap_cons]
    cases ps[i].get? side <;> simp [membersOn]
  · rw [List.modify_eq_take_cons_drop hi, membersOn, List.filterMap_append, List.filterMap_cons,
      Pair.get_set]
    simp [membersOn]

theorem membersOn_modify_opposite (side : Side) (ps : List MemberNode) (i : Nat) (m : Member) :
    membersOn side.opposite (ps.modify i (·.set m side)) = membersOn side.opposite ps := by
  induction ps generalizing i with
  | nil => cases i <;> rfl
  | cons p ps ih =>
    cases i with
    | zero =>
      rw [List.modify_zero_cons, membersOn, membersOn, List.filterMap_cons, List.filterMap_cons,
        Pair.get_set_opposite]
    | succ i =>
      have hps := ih i
      rw [membersOn, membersOn] at hps
      rw [List.modify_succ_cons, membersOn, membersOn, List.filterMap_cons, List.filterMap_cons,
        hps]

namespace Selection

variable (s : Selection) (side : Side)

theorem membersOn_place_opposite (ps : List MemberNode) (m : Member) :
    membersOn side.opposite (s.place side ps m) = membersOn side.opposite ps := by
  unfold place
  split
  · exact membersOn_modify_opposite side ps _ m
  · simp [membersOn]

/-- A member is put beside what is there, or in place of something. -/
theorem membersOn_place (ps : List MemberNode) (m : Member) :
    (membersOn side (s.place side ps m)).Subperm (membersOn side ps ++ [m]) := by
  unfold place
  split
  · next i hi =>
    have hlt : i < ps.length := by simpa using lt_of_home? hi
    obtain ⟨before, after, hps, hset⟩ := membersOn_modify side hlt m
    rw [hps, hset]
    have hlast : (before ++ [m] ++ after).Perm (before ++ after ++ [m]) := by
      rw [List.append_assoc, List.append_assoc]
      exact List.Perm.append_left before List.perm_append_comm
    refine hlast.subperm.trans (List.Sublist.subperm (List.Sublist.append_right ?_ [m]))
    exact List.Sublist.append_right (List.sublist_append_left before _) after
  · rw [membersOn, List.filterMap_append, List.filterMap_cons, Pair.get_single]
    exact .refl _

theorem membersOn_foldl_opposite (ms : List Member) (ps : List MemberNode) :
    membersOn side.opposite (ms.foldl (s.place side) ps) = membersOn side.opposite ps := by
  induction ms generalizing ps with
  | nil => rfl
  | cons m ms ih => rw [List.foldl_cons, ih, membersOn_place_opposite]

theorem membersOn_foldl (ms : List Member) (ps : List MemberNode) :
    (membersOn side (ms.foldl (s.place side) ps)).Subperm (membersOn side ps ++ ms) := by
  induction ms generalizing ps with
  | nil => rw [List.append_nil]; exact .refl _
  | cons m ms ih =>
    refine (ih (s.place side ps m)).trans ?_
    have hstep := (List.subperm_append_right ms).2 (s.membersOn_place side ps m)
    rwa [List.append_assoc, List.singleton_append] at hstep

/-! ## Members that do not collide -/

/-- The node that the member meets first has it. -/
def AtHome (ps : List MemberNode) (m : Member) : Prop :=
  ∃ i p, s.home? (ps.map Pair.representative) m = some i ∧ ps[i]? = some p ∧ p.get? side = some m

/-- The members `ms` have been put on a side of nodes for which `others` stand, which had nothing on
that side, and none of them was replaced. -/
structure Settled (others ms : List Member) (ps : List MemberNode) : Prop where
  representatives : ps.map Pair.representative =
    others ++ ms.filter fun m => (s.home? others m).isNone
  taken : ∀ i p, ps[i]? = some p →
    ((p.get? side).isSome ↔ others.length ≤ i ∨ ∃ m ∈ ms, s.home? others m = some i)
  placed : (membersOn side ps).Perm ms
  home : ∀ m ∈ ms, s.AtHome side ps m

variable {s side} {others ms : List Member} {ps : List MemberNode}

/-- The first node that a member meets is one of the others, or else one of those that are new. -/
theorem Settled.home?_eq (h : s.Settled side others ms ps) (m : Member) :
    s.home? (ps.map Pair.representative) m =
      (s.home? others m).or (((ms.filter fun m => (s.home? others m).isNone).findIdx?
        (s.meets · m)).map (· + others.length)) := by
  rw [h.representatives, home?, List.findIdx?_append]
  rfl

theorem Settled.length_eq (h : s.Settled side others ms ps) :
    ps.length = others.length + (ms.filter fun m => (s.home? others m).isNone).length := by
  have hlength := congrArg List.length h.representatives
  rwa [List.length_map, List.length_append] at hlength

/-- A member that collides with another one takes its place. -/
theorem Settled.length_place (h : s.Settled side others ms ps) {m : Member}
    (hcollide : ∃ m' ∈ ms, s.Collide others m' m) :
    (membersOn side (s.place side ps m)).length = ms.length := by
  obtain ⟨m', hm', hhome, hmeets⟩ := hcollide
  obtain ⟨i, hlt, hi, htaken⟩ : ∃ (i : Nat) (hlt : i < ps.length),
      s.home? (ps.map Pair.representative) m = some i ∧ (ps[i].get? side).isSome := by
    rw [h.home?_eq]
    have hlength := h.length_eq
    cases hm : s.home? others m with
    | some i =>
      have hlt := lt_of_home? hm
      refine ⟨i, by omega, rfl, ?_⟩
      exact (h.taken i _ (List.getElem?_eq_getElem _)).2 (.inr ⟨m', hm', hhome.trans hm⟩)
    | none =>
      have hnew : m' ∈ ms.filter fun m => (s.home? others m).isNone :=
        List.mem_filter.2 ⟨hm', by rw [hhome, hm]; rfl⟩
      cases hj : (ms.filter fun m => (s.home? others m).isNone).findIdx? (s.meets · m) with
      | none =>
        have hno := List.findIdx?_eq_none_iff.1 hj m' hnew
        rw [hmeets (hhome.trans hm)] at hno
        cases hno
      | some j =>
        obtain ⟨hlt, -, -⟩ := List.findIdx?_eq_some_iff_getElem.1 hj
        refine ⟨j + others.length, by omega, rfl, ?_⟩
        exact (h.taken _ _ (List.getElem?_eq_getElem _)).2 (.inl (Nat.le_add_left _ _))
  obtain ⟨old, hold⟩ := Option.isSome_iff_exists.1 htaken
  obtain ⟨before, after, hps, hset⟩ := membersOn_modify side hlt m
  rw [← h.placed.length_eq, hps, place, hi, hold]
  simp [hset]

/-- A node that has nothing on the side yet takes the member. -/
theorem Settled.modify (h : s.Settled side others ms ps) (hside : side = .left → others = [])
    {m : Member} {i : Nat} (hm : s.home? others m = some i)
    (hfree : ∀ m' ∈ ms, ¬ s.Collide others m' m) :
    s.Settled side others (ms ++ [m]) (ps.modify i (·.set m side)) := by
  have hlt : i < ps.length := by
    have := lt_of_home? hm
    have := h.length_eq
    omega
  have hnone : ps[i].get? side = none := by
    rw [← Option.not_isSome_iff_eq_none, h.taken i _ (List.getElem?_eq_getElem hlt)]
    rintro (hle | ⟨m', hm', hhome⟩)
    · exact Nat.not_le_of_lt (lt_of_home? hm) hle
    · refine hfree m' hm' ⟨hhome.trans hm.symm, fun hno => ?_⟩
      rw [hhome] at hno
      cases hno
  have hrep : (ps[i].set m side).representative = ps[i].representative := by
    cases side with
    | left =>
      rw [hside rfl] at hm
      cases hm
    | right => cases hp : ps[i] <;> simp_all [Pair.set, Pair.get?, Pair.right?, Pair.representative]
  have hreps : (ps.modify i (·.set m side)).map Pair.representative = ps.map Pair.representative :=
    BucketIndex.map_modify_eq (by simpa [List.getElem?_eq_getElem hlt] using hrep)
  have hnew : (ms ++ [m]).filter (fun m => (s.home? others m).isNone) =
      ms.filter fun m => (s.home? others m).isNone := by
    simp [hm]
  refine ⟨by rw [hreps, hnew, h.representatives], fun j p hp => ?_, ?_, ?_⟩
  · rw [List.getElem?_modify] at hp
    obtain ⟨q, hq, rfl⟩ := Option.map_eq_some_iff.1 hp
    by_cases e : i = j
    · subst e
      simp [hm]
    · simp [e, h.taken j q hq, hm]
  · obtain ⟨before, after, hps, hset⟩ := membersOn_modify side hlt m
    rw [hnone, Option.toList_none, List.append_nil] at hps
    have hbefore : (before ++ after).Perm ms := hps ▸ h.placed
    rw [hset, List.append_assoc]
    exact (List.perm_append_comm.append_left before).trans
      ((List.append_assoc before after [m]) ▸ hbefore.append_right [m])
  · -- the place of a member that has one is another place
    refine fun m' hm' => ?_
    rw [AtHome, hreps]
    rcases List.mem_append.1 hm' with hm' | hm'
    · obtain ⟨j, p, hj, hp, hget⟩ := h.home m' hm'
      have hne : i ≠ j := by
        rintro rfl
        rw [List.getElem?_eq_getElem hlt, Option.some.injEq] at hp
        rw [hp, hget] at hnone
        cases hnone
      exact ⟨j, p, hj, by simp [hne, hp], hget⟩
    · obtain rfl := List.mem_singleton.1 hm'
      refine ⟨i, ps[i].set m' side, ?_, by simp [hlt], Pair.get_set _ _ _⟩
      rw [h.home?_eq, hm, Option.some_or]

/-- A member that meets nothing gets a node of its own. -/
theorem Settled.push (h : s.Settled side others ms ps) {m : Member}
    (hm : s.home? others m = none) (hfree : ∀ m' ∈ ms, ¬ s.Collide others m' m) :
    s.home? (ps.map Pair.representative) m = none ∧
      s.Settled side others (ms ++ [m]) (ps ++ [.single m side]) := by
  have hlength := h.length_eq
  have hnone : s.home? (ps.map Pair.representative) m = none := by
    rw [h.home?_eq, hm, Option.none_or, Option.map_eq_none_iff, List.findIdx?_eq_none_iff]
    intro m' hm'
    obtain ⟨hm', hhome⟩ := List.mem_filter.1 hm'
    rw [Option.isNone_iff_eq_none] at hhome
    refine Bool.eq_false_iff.2 fun hmeets => hfree m' hm' ⟨hhome.trans hm.symm, fun _ => hmeets⟩
  have hrep : (Pair.single m side).representative = m := by cases side <;> rfl
  refine ⟨hnone, ?_, fun j p hp => ?_, ?_, fun m' hm' => ?_⟩
  · rw [List.map_append, h.representatives, List.filter_append, List.append_assoc,
      List.map_singleton, hrep]
    simp [hm]
  · rw [List.getElem?_append] at hp
    split at hp
    · simp [h.taken j p hp, hm]
    · next hle =>
      obtain rfl := List.mem_singleton.1 (List.mem_of_getElem? hp)
      simp only [Pair.get_single, Option.isSome_some, true_iff]
      exact .inl (by omega)
  · rw [membersOn, List.filterMap_append, List.filterMap_cons, Pair.get_single]
    exact h.placed.append_right [m]
  · rw [AtHome, List.map_append, List.map_singleton, hrep]
    rcases List.mem_append.1 hm' with hm' | hm'
    · obtain ⟨j, p, hj, hp, hget⟩ := h.home m' hm'
      refine ⟨j, p, ?_, ?_, hget⟩
      · rw [home?, List.findIdx?_append, ← home?, hj, Option.some_or]
      · rw [List.getElem?_append_left (List.getElem?_eq_some_iff.1 hp).1, hp]
    · obtain rfl := List.mem_singleton.1 hm'
      refine ⟨ps.length, .single m' side, ?_, List.getElem?_concat_length, Pair.get_single _ _⟩
      rw [home?, List.findIdx?_append, ← home?, hnone]
      simp [s.meets_self]

/-- A member that collides with no other one is put beside them. -/
theorem Settled.place (h : s.Settled side others ms ps) (hside : side = .left → others = [])
    {m : Member} (hfree : ∀ m' ∈ ms, ¬ s.Collide others m' m) :
    s.Settled side others (ms ++ [m]) (s.place side ps m) := by
  rw [Selection.place]
  cases hm : s.home? others m with
  | some i =>
    rw [h.home?_eq, hm, Option.some_or]
    exact h.modify hside hm hfree
  | none =>
    obtain ⟨hnone, hpush⟩ := h.push hm hfree
    rw [hnone]
    exact hpush

/-! ## Putting all members of a side -/

/-- Before the first two members that collide everything is in its place; then there is less than
was put. -/
theorem settled_or_fewer (hside : side = .left → others = [])
    (hstart : s.Settled side others [] ps) (ms : List Member) :
    (ms.Pairwise (fun m m' => ¬ s.Collide others m m') →
      s.Settled side others ms (ms.foldl (s.place side) ps)) ∧
    (¬ ms.Pairwise (fun m m' => ¬ s.Collide others m m') →
      (membersOn side (ms.foldl (s.place side) ps)).length < ms.length) := by
  induction ms using List.reverseRecOn with
  | nil => exact ⟨fun _ => hstart, fun h => absurd .nil h⟩
  | append_singleton ms m ih =>
    obtain ⟨hsettled, hfewer⟩ := ih
    simp only [List.foldl_append, List.foldl_cons, List.foldl_nil, List.pairwise_append,
      List.pairwise_singleton, List.mem_singleton, forall_eq, true_and, List.length_append,
      List.length_singleton]
    refine ⟨fun ⟨hms, hm⟩ => (hsettled hms).place hside hm, fun h => ?_⟩
    by_cases hms : ms.Pairwise fun m m' => ¬ s.Collide others m m'
    · have hcollide : ∃ m' ∈ ms, s.Collide others m' m := by
        by_contra hnone
        exact h ⟨hms, fun m' hm' hcollide => hnone ⟨m', hm', hcollide⟩⟩
      rw [(hsettled hms).length_place hcollide]
      exact Nat.lt_succ_self _
    · have hstep := (s.membersOn_place side (ms.foldl (s.place side) ps) m).length_le
      rw [List.length_append, List.length_singleton] at hstep
      have := hfewer hms
      omega

/-- Everything that was put on a side is there exactly if no two of it collide. -/
theorem membersOn_perm_iff (hside : side = .left → others = [])
    (hstart : s.Settled side others [] ps) (ms : List Member) :
    (membersOn side (ms.foldl (s.place side) ps)).Perm ms ↔
      ms.Pairwise fun m m' => ¬ s.Collide others m m' := by
  obtain ⟨hsettled, hfewer⟩ := settled_or_fewer hside hstart ms
  refine ⟨fun hperm => ?_, fun h => (hsettled h).placed⟩
  by_contra h
  exact absurd hperm.length_eq (Nat.ne_of_lt (hfewer h))

/-- A member that is at home is put where it is. -/
theorem AtHome.place {m : Member} (h : s.AtHome side ps m) : s.place side ps m = ps := by
  obtain ⟨i, p, hi, hp, hget⟩ := h
  have hset : p.set m side = p := by
    cases p <;> cases side <;> simp_all [Pair.get?, Pair.left?, Pair.right?, Pair.set]
  rw [Selection.place, hi]
  refine List.ext_getElem? fun j => ?_
  rw [List.getElem?_modify]
  by_cases e : i = j
  · subst e
    simp [hp, hset]
  · simp [e]

theorem Settled.foldl_again (h : s.Settled side others ms ps) {again : List Member}
    (hsub : again ⊆ ms) : again.foldl (s.place side) ps = ps := by
  induction again with
  | nil => rfl
  | cons m again ih =>
    obtain ⟨hm, hagain⟩ := List.cons_subset.1 hsub
    rw [List.foldl_cons, (h.home m hm).place, ih hagain]

/-- Members that do not collide may be put again and again. -/
theorem membersOn_foldl_repeated {α : Type} (hside : side = .left → others = [])
    (hstart : s.Settled side others [] ps) (hms : ms.Pairwise fun m m' => ¬ s.Collide others m m')
    {xs : List α} (hxs : xs ≠ []) :
    (membersOn side ((xs.flatMap fun _ => ms).foldl (s.place side) ps)).Perm ms := by
  obtain ⟨x, xs, rfl⟩ := List.exists_cons_of_ne_nil hxs
  have hsettled := (settled_or_fewer hside hstart ms).1 hms
  have hagain : (xs.flatMap fun _ => ms) ⊆ ms := fun m hm => by
    obtain ⟨-, -, hm⟩ := List.mem_flatMap.1 hm
    exact hm
  rw [List.flatMap_cons, List.foldl_append, hsettled.foldl_again hagain]
  exact hsettled.placed

/-! ## The two sides -/

theorem settled_left (s : Selection) : s.Settled .left [] [] [] := by
  refine ⟨rfl, fun i p hp => ?_, .nil, nofun⟩
  rw [List.getElem?_nil] at hp
  cases hp

/-- As long as nothing is put on the right, every node has a member on the left only. -/
theorem exists_leftOnly (s : Selection) (ms : List Member) :
    ∀ p ∈ ms.foldl (s.place .left) [], ∃ m, p = .leftOnly m := by
  induction ms using List.reverseRecOn with
  | nil => exact fun p hp => absurd hp List.not_mem_nil
  | append_singleton ms m ih =>
    rw [List.foldl_append, List.foldl_cons, List.foldl_nil, Selection.place]
    intro p hp
    split at hp
    · obtain ⟨i, hi⟩ := List.mem_iff_getElem?.1 hp
      rw [List.getElem?_modify] at hi
      obtain ⟨q, hq, rfl⟩ := Option.map_eq_some_iff.1 hi
      obtain ⟨m', rfl⟩ := ih q (List.mem_of_getElem? hq)
      split
      · exact ⟨m, rfl⟩
      · exact ⟨m', rfl⟩
    · rcases List.mem_append.1 hp with hp | hp
      · exact ih p hp
      · exact ⟨m, List.mem_singleton.1 hp⟩

/-- What is on the left stands for the nodes while the right side is put there. -/
theorem settled_right (s : Selection) {ps : List MemberNode}
    (hps : ∀ p ∈ ps, ∃ m, p = Pair.leftOnly m) :
    s.Settled .right (membersOn .left ps) [] ps := by
  have hright : ∀ p ∈ ps, p.get? .right = none := by
    intro p hp
    obtain ⟨m, rfl⟩ := hps p hp
    rfl
  have hlefts : ps.map Pair.representative = membersOn .left ps := by
    have hsome : ∀ p ∈ ps, p.get? .left = some p.representative := by
      intro p hp
      obtain ⟨m, rfl⟩ := hps p hp
      rfl
    rw [membersOn, List.filterMap_congr hsome, List.filterMap_eq_map']
  refine ⟨by simp [hlefts], fun i p hp => ?_, ?_, nofun⟩
  · have hlt := (List.getElem?_eq_some_iff.1 hp).1
    rw [hright p (List.mem_of_getElem? hp), ← hlefts, List.length_map]
    simp only [Option.isSome_none, Bool.false_eq_true, List.not_mem_nil, false_and, exists_false,
      or_false, false_iff]
    omega
  · rw [membersOn, List.filterMap_eq_nil_iff.2 hright]

end Selection

/-! ## The tree -/

/-- The definitions with the path that an assembly brings. -/
def Selection.brought (s : Selection) (definitions : DefinitionId → Option TypeDefinition)
    (l : Loaded) (path : List (String × String)) : List Definition :=
  (s.registered definitions l.bound).filter (·.path == path)

/-- What is on a side of a node into which `ds` were put on that side, with `others` standing for
the member nodes before. -/
structure TypeNode.HoldsMembers (s : Selection) (side : Side) (others : List Member)
    (ds : List Definition) (n : TypeNode) : Prop where
  /-- the type is the last one -/
  type : n.types.get? side = ds.getLast?
  /-- without a type there are no members -/
  absent : n.types.get? side = none → n.membersOn side = []
  /-- each member was put there by one of the types, and no more often -/
  subperm : (n.membersOn side).Subperm (ds.flatMap (s.included ·.type))
  /-- what all the types put there is there exactly if no two members collide -/
  perm_iff : (n.membersOn side).Perm (ds.flatMap (s.included ·.type)) ↔
    (ds.flatMap (s.included ·.type)).Pairwise fun m m' => ¬ s.Collide others m m'
  /-- a type that is put there alone, or again and again, has its members there -/
  repeated : ∀ t, n.types.get? side = some t →
    (∀ d ∈ ds, s.included d.type = s.included t.type) →
    ((s.included t.type).Pairwise fun m m' => ¬ s.Collide others m m') →
    (n.membersOn side).Perm (s.included t.type)

theorem TypeNode.holdsMembers {s : Selection} {side : Side} {others : List Member}
    {ds : List Definition} {n : TypeNode} {ps : List MemberNode}
    (hside : side = .left → others = []) (hstart : s.Settled side others [] ps)
    (htype : n.types.get? side = ds.getLast?)
    (hmembers : n.membersOn side =
      ApiEvolution.membersOn side ((ds.flatMap (s.included ·.type)).foldl (s.place side) ps)) :
    n.HoldsMembers s side others ds := by
  have hnone : ApiEvolution.membersOn side ps = [] := List.perm_nil.1 hstart.placed
  have hsubperm : (n.membersOn side).Subperm (ds.flatMap (s.included ·.type)) := by
    have h := s.membersOn_foldl side (ds.flatMap (s.included ·.type)) ps
    rwa [← hmembers, hnone, List.nil_append] at h
  refine ⟨htype, fun h => ?_, hsubperm, ?_, fun t ht hds hms => ?_⟩
  · rw [htype, List.getLast?_eq_none_iff] at h
    subst h
    exact List.subperm_nil.1 hsubperm
  · rw [hmembers]
    exact Selection.membersOn_perm_iff hside hstart _
  · have hne : ds ≠ [] := by
      rintro rfl
      rw [htype] at ht
      cases ht
    have hflat : ds.flatMap (s.included ·.type) = ds.flatMap fun _ => s.included t.type := by
      rw [List.flatMap_def, List.flatMap_def, List.map_congr_left hds]
    rw [hmembers, hflat]
    exact Selection.membersOn_foldl_repeated hside hstart hms hne

namespace Joined

variable {s : Selection} {nodes : BucketIndex TypeNode}

/-- What is on the two sides of the nodes into which `ls` are put on the left, then `rs` on the
right. -/
theorem holdsMembers {ls rs : List Definition}
    (h : Joined s (ls.map (.left, ·) ++ rs.map (.right, ·)) nodes) {n : TypeNode}
    (hn : n ∈ nodes.entries) :
    n.HoldsMembers s .left [] (ls.filter (·.path == n.path)) ∧
      n.HoldsMembers s .right (n.membersOn .left) (rs.filter (·.path == n.path)) := by
  have hleft := (h.sides hn .left).trans (latest_left _ _ _)
  have hright := (h.sides hn .right).trans (latest_right _ _ _)
  -- the nodes after the left side, and after both
  let before := ((ls.filter (·.path == n.path)).flatMap (s.included ·.type)).foldl
    (s.place .left) []
  have hentries : n.members.entries =
      ((rs.filter (·.path == n.path)).flatMap (s.included ·.type)).foldl (s.place .right)
        before := by
    have hgathered := (TypeNode.gather_members (h.gathered n hn)).1
    simp only [List.filter_append, List.filter_map, List.foldl_append, List.foldl_map] at hgathered
    rw [List.foldl_flatMap, hgathered]
    exact congrArg (List.foldl _ · _) (List.foldl_flatMap ..).symm
  have hbefore : n.membersOn .left = membersOn .left before := by
    rw [TypeNode.membersOn, hentries]
    exact s.membersOn_foldl_opposite .right _ _
  refine ⟨TypeNode.holdsMembers (fun _ => rfl) s.settled_left hleft hbefore, ?_⟩
  have hsettled := s.settled_right (s.exists_leftOnly
    ((ls.filter (·.path == n.path)).flatMap (s.included ·.type)))
  rw [← hbefore] at hsettled
  exact TypeNode.holdsMembers nofun hsettled hright (congrArg (membersOn .right) hentries)

end Joined

/-- On each side of a node are members of the types that were put there, and all of them exactly if
no two collide; in particular those of the one type that was put there, if they do not collide. On
the right, what is on the left stands for the nodes before. -/
theorem SurfaceTree.members_ofBuilds (s : Selection)
    (definitions : DefinitionId → Option TypeDefinition) (left right : Loaded)
    (h : ∀ d ∈ s.registered definitions left.bound ++ s.registered definitions right.bound,
      d.type.descriptor.isDefinitionChain) :
    ∀ n ∈ (SurfaceTree.ofBuilds s definitions left right).types,
      n.HoldsMembers s .left [] (s.brought definitions left n.path) ∧
      n.HoldsMembers s .right (n.membersOn .left) (s.brought definitions right n.path) :=
  fun _ hn => (joined_ofBuilds s definitions left right h).holdsMembers hn

/-- What the left assembly brings has a node. -/
theorem SurfaceTree.exists_holdsMembers_left (s : Selection)
    (definitions : DefinitionId → Option TypeDefinition) (left right : Loaded)
    (h : ∀ d ∈ s.registered definitions left.bound ++ s.registered definitions right.bound,
      d.type.descriptor.isDefinitionChain) {d : Definition}
    (hd : d ∈ s.registered definitions left.bound) :
    ∃ n ∈ (SurfaceTree.ofBuilds s definitions left right).types,
      n.HoldsMembers s .left [] (s.brought definitions left d.path) := by
  have hjoined := joined_ofBuilds s definitions left right h
  obtain ⟨n, hn, hpath⟩ := hjoined.exists_node (List.mem_append_left _ (List.mem_map_of_mem hd))
  exact ⟨n, hn, hpath ▸ (hjoined.holdsMembers hn).1⟩

/-- A library with a public class of each of these names, with these members. -/
def stocked (number : Nat) (types : List (String × List MemberDeclaration)) : Loaded :=
  let name : AssemblyName := ⟨"Lib", .zero, none⟩
  let types := types.map fun t => { TypeDeclaration.publicClass "Lib" t.1 with members := t.2 }
  ⟨⟨0, number⟩, AssemblyDeclaration.build ⟨name, [AssemblyDeclaration.mainModule name types []]⟩⟩

/-- A conversion of money to another class; conversions differ in nothing but their results. -/
def conversion (result : String) : MemberDeclaration :=
  let named (name : String) : Signature := .named (.topLevel ⟨"Lib", .zero, none⟩ "Lib" name)
  .method
    { name := "op_Implicit"
      attributes := Method.staticFlag ||| Method.specialNameFlag
      parameters := [named "Money"]
      returnType := some (named result) }

def size (name : String) : MemberDeclaration :=
  .field name .publicScope none

/-- A hash that can be computed by hand. -/
def lengthHash : HashFunction := fun f => .ofNat f.length

/-- A build of a library with a box that has these sizes. -/
def boxBuild (number : Nat) (sizes : List String) : Loaded :=
  stocked number [("Box", sizes.map size)]

/-- The members that an assembly puts into the node. -/
def boxMembers (s : Selection) (l : Loaded) (n : TypeNode) : List Member :=
  (s.brought (fun _ => none) l n.path).flatMap (s.included ·.type)

/-- Two builds of a box of which each has two sizes, one of them in common. -/
theorem SurfaceTree.members_ofBuilds_box :
    let s : Selection := { Selection.visible with hash := lengthHash }
    let nodes := (SurfaceTree.ofBuilds s (fun _ => none) (boxBuild 0 ["Width", "Height"])
      (boxBuild 1 ["Height", "Depth"])).types
    nodes.map (·.members.entries.map Pair.state) = [["LeftOnly", "Both", "RightOnly"]] ∧
      ∀ n ∈ nodes, (n.membersOn .left).Perm (boxMembers s (boxBuild 0 ["Width", "Height"]) n) ∧
        (n.membersOn .right).Perm (boxMembers s (boxBuild 1 ["Height", "Depth"]) n) := by
  intro s nodes
  have hapart : ∀ n ∈ nodes,
      (boxMembers s (boxBuild 0 ["Width", "Height"]) n).Pairwise (fun m m' => ¬ s.Collide [] m m') ∧
      (boxMembers s (boxBuild 1 ["Height", "Depth"]) n).Pairwise
        fun m m' => ¬ s.Collide (n.membersOn .left) m m' := by
    decide +kernel
  refine ⟨by decide +kernel, fun n hn => ?_⟩
  obtain ⟨hleft, hright⟩ := SurfaceTree.members_ofBuilds s (fun _ => none)
    (boxBuild 0 ["Width", "Height"]) (boxBuild 1 ["Height", "Depth"]) (by decide +kernel) n hn
  exact ⟨hleft.perm_iff.2 (hapart n hn).1, hright.perm_iff.2 (hapart n hn).2⟩

/-- Conversions that differ in their results go into one node, so one of them is lost; and what was
put into a node stays there when another type of the same name takes the place of the first. -/
theorem SurfaceTree.exists_membersOn_ne :
    (∃ n ∈ (SurfaceTree.ofBuilds .visible (fun _ => none)
        (stocked 0 [("Money", [conversion "Cents", conversion "Euros"])]) (stocked 1 [])).types,
      ∃ t, n.types.get? .left = some t ∧
        ¬ (n.membersOn .left).Perm (Selection.visible.included t.type)) ∧
    ∃ n ∈ (SurfaceTree.ofBuilds .visible (fun _ => none)
        (stocked 0 [("Widget", [size "Width"]), ("Widget", [size "Height"])]) (stocked 1 [])).types,
      ∃ t, n.types.get? .left = some t ∧
        ¬ (n.membersOn .left).Perm (Selection.visible.included t.type) := by
  constructor
  · obtain ⟨n, hn, hleft⟩ := SurfaceTree.exists_holdsMembers_left .visible (fun _ => none)
      (stocked 0 [("Money", [conversion "Cents", conversion "Euros"])]) (stocked 1 [])
      (by decide +kernel) List.mem_cons_self
    refine ⟨n, hn, _, hleft.type, fun hperm => ?_⟩
    have hapart := (List.pairwise_cons.1 (hleft.perm_iff.1 hperm)).1 _ List.mem_cons_self
    refine hapart ⟨rfl, fun _ => ?_⟩
    rw [Selection.meets, Bool.and_eq_true, beq_iff_eq]
    refine ⟨congrArg Selection.visible.hash ?_, ?_⟩
    · decide +kernel
    · decide +kernel
  · obtain ⟨n, hn, hleft⟩ := SurfaceTree.exists_holdsMembers_left .visible (fun _ => none)
      (stocked 0 [("Widget", [size "Width"]), ("Widget", [size "Height"])]) (stocked 1 [])
      (by decide +kernel) List.mem_cons_self
    refine ⟨n, hn, _, hleft.type, fun hperm => ?_⟩
    have hboth := hleft.perm_iff.2 (.cons (List.forall_mem_singleton.2 fun hcollide => ?_)
      (List.pairwise_singleton _ _))
    · exact absurd (hboth.symm.trans hperm).length_eq (by decide +kernel)
    · have hmeets := hcollide.2 rfl
      rw [Selection.meets, Bool.and_eq_true] at hmeets
      exact absurd hmeets.2 (by decide +kernel)

end ApiEvolution
