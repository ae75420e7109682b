import ApiEvolution.Baseline.Basic

/-!
# What subtracting a baseline leaves

Subtraction looks for a suppression in the first section of its names only, and marks the first
equal entry only. So what is left is what these first sections do not list (`subtract_fst`), and
the other baseline has nothing unneeded if and only if it is `Irredundant` and the first one lists
all of it (`subtract_snd_eq_false_iff`).

The main statement is `subtract_law`: a baseline can be subtracted from every other one as sets are
if and only if it is irredundant, and that can be told from subtracting it from itself.
-/

namespace ApiEvolution.Baseline

/-! ## What a baseline lists -/

/-- The suppressions in all sections of a pair of builds. -/
def listed (b : Baseline) (left right : String) : List Suppression :=
  (b.sections.filter (Section.isOf left right)).flatMap (·.suppressions)

/-- The suppressions in the first section of a pair of builds. -/
def firstListed (b : Baseline) (left right : String) : List Suppression :=
  (b.section? left right).elim [] (·.suppressions)

/-- Nothing is listed in vain: no suppression stands behind an equal one, and no section with
suppressions behind another one of its names. -/
structure Irredundant (b : Baseline) : Prop where
  once : ∀ s ∈ b.sections, s.suppressions.Nodup
  alone : b.sections.Pairwise fun s t => t.isOf s.left s.right → t.suppressions = []

instance (b : Baseline) : Decidable b.Irredundant :=
  decidable_of_iff ((∀ s ∈ b.sections, s.suppressions.Nodup) ∧
      b.sections.Pairwise fun s t => t.isOf s.left s.right → t.suppressions = [])
    ⟨fun h => ⟨h.1, h.2⟩, fun h => ⟨h.once, h.alone⟩⟩

/-- The suppressions, in their order and as often as they stand there, that are not taken; sections
with nothing left are dropped. -/
def without (b : Baseline) (taken : String → String → List Suppression) : Baseline :=
  ⟨(b.sections.map fun s =>
    { s with suppressions := s.suppressions.filter (· ∉ taken s.left s.right) }).filter
      fun s => !s.suppressions.isEmpty⟩

theorem mem_listed {b : Baseline} {left right : String} {x : Suppression} :
    x ∈ b.listed left right ↔ ∃ s ∈ b.sections, s.isOf left right ∧ x ∈ s.suppressions := by
  simp only [listed, List.mem_flatMap, List.mem_filter, and_assoc]

theorem mem_firstListed {b : Baseline} {left right : String} {x : Suppression} :
    x ∈ b.firstListed left right ↔ ∃ s, b.section? left right = some s ∧ x ∈ s.suppressions := by
  unfold firstListed
  cases b.section? left right <;> simp

theorem mem_listed_of_mem_firstListed {b : Baseline} {left right : String} {x : Suppression}
    (h : x ∈ b.firstListed left right) : x ∈ b.listed left right := by
  obtain ⟨s, hs, hx⟩ := mem_firstListed.1 h
  exact mem_listed.2 ⟨s, List.mem_of_find?_eq_some hs, List.find?_some hs, hx⟩

/-! ## What is left -/

theorem map_counterpart? (other : Baseline) (s : Section) :
    (other.counterpart? s).map (·.2) = other.section? s.left s.right := by
  have hfst : other.sections.zipIdx.map (·.1) = other.sections := List.zipIdx_map_fst 0 _
  rw [section?, ← hfst, List.find?_map, counterpart?, Option.map_map]
  rfl

theorem sectionMinus_eq (s : Section) (other : Baseline) :
    sectionMinus s other = { s with
      suppressions := s.suppressions.filter (· ∉ other.firstListed s.left s.right) } := by
  have h := map_counterpart? other s
  unfold sectionMinus firstListed
  rw [← h]
  cases other.counterpart? s with
  | none => simp [List.filter_eq_self.2]
  | some t =>
    simp only [Option.map_some, Option.elim_some]
    congr 1
    exact List.filter_congr fun x _ => Section.isNone_positionOf?

/-- What is left is what the first sections of the same names do not list. -/
theorem subtract_fst (b other : Baseline) : (b.subtract other).1 = b.without other.firstListed := by
  simp only [subtract, without, sectionMinus_eq]

/-! ## What was not needed -/

theorem counterpart?_eq_some_iff {other : Baseline} {s t : Section} {i : Nat} :
    other.counterpart? s = some (i, t) ↔ other.sections[i]? = some t ∧ t.isOf s.left s.right ∧
      ∀ k < i, ∀ u, other.sections[k]? = some u → ¬u.isOf s.left s.right := by
  simp only [counterpart?, Option.map_eq_some_iff, List.find?_eq_some_iff_getElem,
    List.getElem_zipIdx, List.length_zipIdx]
  constructor
  · rintro ⟨_, ⟨ht, i, hi, rfl, hlt⟩, he⟩
    simp at he
    obtain ⟨rfl, rfl⟩ := he
    refine ⟨List.getElem?_eq_getElem hi, ht, fun k hk u hu => ?_⟩
    obtain ⟨_, rfl⟩ := List.getElem?_eq_some_iff.1 hu
    simpa using hlt k hk
  · rintro ⟨hi, ht, hlt⟩
    obtain ⟨hlen, rfl⟩ := List.getElem?_eq_some_iff.1 hi
    refine ⟨_, ⟨ht, i, hlen, rfl, fun k hk => ?_⟩, by simp⟩
    simpa using hlt k hk _ (List.getElem?_eq_getElem (Nat.lt_trans hk hlen))

theorem mem_usedBy {s : Section} {other : Baseline} {i j : Nat} :
    (i, j) ∈ usedBy s other ↔
      ∃ t, other.counterpart? s = some (i, t) ∧ ∃ x ∈ s.suppressions, t.positionOf? x = some j := by
  unfold usedBy
  cases other.counterpart? s with
  | none => simp
  | some it =>
    simp only [List.mem_filterMap, Option.map_eq_some_iff, Prod.mk.injEq, Option.some.injEq]
    constructor
    · rintro ⟨x, hx, _, hj, rfl, rfl⟩
      exact ⟨it.2, rfl, x, hx, hj⟩
    · rintro ⟨t, rfl, x, hx, hj⟩
      exact ⟨x, hx, j, hj, rfl, rfl⟩

theorem mem_places {b : Baseline} {i j : Nat} :
    (i, j) ∈ b.places ↔ ∃ t x, b.sections[i]? = some t ∧ t.suppressions[j]? = some x := by
  simp only [places, List.mem_flatMap, List.mem_map, List.mem_range, Prod.mk.injEq,
    List.mem_zipIdx_iff_getElem?]
  constructor
  · rintro ⟨t, ht, _, hj, rfl, rfl⟩
    exact ⟨t.1, _, ht, List.getElem?_eq_getElem hj⟩
  · rintro ⟨t, x, ht, hx⟩
    exact ⟨(t, i), ht, j, (List.getElem?_eq_some_iff.1 hx).1, rfl, rfl⟩

theorem counterpart?_congr {other : Baseline} {s t : Section} (h : s.isOf t.left t.right) :
    other.counterpart? s = other.counterpart? t := by
  obtain ⟨hleft, hright⟩ := Section.isOf_iff.1 h
  rw [counterpart?, counterpart?, hleft, hright]

/-- No section with suppressions stands behind another one of its names exactly if each is its own
counterpart. -/
theorem pairwise_alone_iff {b : Baseline} :
    (b.sections.Pairwise fun s t => t.isOf s.left s.right → t.suppressions = []) ↔
      ∀ i t, b.sections[i]? = some t → t.suppressions ≠ [] → b.counterpart? t = some (i, t) := by
  rw [List.pairwise_iff_getElem]
  constructor
  · intro h i t ht hne
    refine counterpart?_eq_some_iff.2 ⟨ht, t.isOf_self, fun k hk u hu hut => hne ?_⟩
    obtain ⟨hi, rfl⟩ := List.getElem?_eq_some_iff.1 ht
    obtain ⟨hk', rfl⟩ := List.getElem?_eq_some_iff.1 hu
    exact h k i hk' hi hk (Section.isOf_comm.1 hut)
  · intro h k i hk hi hki hof
    refine Classical.byContradiction fun hne => ?_
    have hown := h i _ (List.getElem?_eq_getElem hi) hne
    exact (counterpart?_eq_some_iff.1 hown).2.2 k hki _ (List.getElem?_eq_getElem hk)
      (Section.isOf_comm.1 hof)

/-- A place that is found when its suppression is looked for under the names of its section. -/
def IsForemost (b : Baseline) (i j : Nat) : Prop :=
  ∃ t x, b.counterpart? t = some (i, t) ∧ t.positionOf? x = some j

theorem irredundant_iff {b : Baseline} :
    b.Irredundant ↔ ∀ i j, (i, j) ∈ b.places → b.IsForemost i j := by
  constructor
  · intro h i j hp
    obtain ⟨t, x, ht, hx⟩ := mem_places.1 hp
    have hne := List.ne_nil_of_mem (List.mem_of_getElem? hx)
    exact ⟨t, x, pairwise_alone_iff.1 h.alone i t ht hne,
      Section.nodup_iff.1 (h.once t (List.mem_of_getElem? ht)) j x hx⟩
  · intro h
    refine ⟨fun t ht => ?_, pairwise_alone_iff.2 fun i t ht hne => ?_⟩
    · obtain ⟨i, ht⟩ := List.mem_iff_getElem?.1 ht
      refine Section.nodup_iff.2 fun j x hx => ?_
      obtain ⟨t', x', ht', hx'⟩ := h i j (mem_places.2 ⟨t, x, ht, hx⟩)
      obtain rfl : t = t' := Option.some.inj (ht.symm.trans (counterpart?_eq_some_iff.1 ht').1)
      obtain rfl : x = x' :=
        Option.some.inj (hx.symm.trans (Section.positionOf?_eq_some_iff.1 hx').1)
      exact hx'
    · obtain ⟨x, hx⟩ := List.exists_mem_of_ne_nil _ hne
      obtain ⟨j, hx⟩ := List.mem_iff_getElem?.1 hx
      obtain ⟨t', -, ht', -⟩ := h i j (mem_places.2 ⟨t, x, ht, hx⟩)
      obtain rfl : t = t' := Option.some.inj (ht.symm.trans (counterpart?_eq_some_iff.1 ht').1)
      exact ht'

/-- The suppressions of `b` are found at the foremost places of what `other` lists. -/
theorem mem_used_iff {b other : Baseline} {i j : Nat} {t : Section} {x : Suppression}
    (ht : other.sections[i]? = some t) (hx : t.suppressions[j]? = some x) :
    (i, j) ∈ b.sections.flatMap (usedBy · other) ↔
      other.IsForemost i j ∧ x ∈ b.listed t.left t.right := by
  simp only [List.mem_flatMap, mem_usedBy, mem_listed]
  constructor
  · rintro ⟨s, hs, t', ht', y, hy, hj⟩
    obtain ⟨hi, hof, -⟩ := counterpart?_eq_some_iff.1 ht'
    obtain rfl : t = t' := Option.some.inj (ht.symm.trans hi)
    obtain rfl : x = y := Option.some.inj (hx.symm.trans (Section.positionOf?_eq_some_iff.1 hj).1)
    exact ⟨⟨t, x, (counterpart?_congr hof).trans ht', hj⟩, s, hs, Section.isOf_comm.1 hof, hy⟩
  · rintro ⟨⟨t', y, ht', hj⟩, s, hs, hof, hxs⟩
    obtain rfl : t = t' := Option.some.inj (ht.symm.trans (counterpart?_eq_some_iff.1 ht').1)
    obtain rfl : x = y := Option.some.inj (hx.symm.trans (Section.positionOf?_eq_some_iff.1 hj).1)
    exact ⟨s, hs, t, (counterpart?_congr hof).trans ht', x, hxs, hj⟩

/-- Nothing that `other` lists is without need if `other` is irredundant and `b` lists all of it. -/
theorem subtract_snd_eq_false_iff {b other : Baseline} :
    (b.subtract other).2 = false ↔ other.Irredundant ∧
      ∀ t ∈ other.sections, ∀ x ∈ t.suppressions, x ∈ b.listed t.left t.right := by
  simp only [subtract, List.any_eq_false, Bool.not_eq_true', Bool.not_eq_false,
    List.contains_iff_mem, irredundant_iff]
  constructor
  · intro h
    refine ⟨fun i j hp => ?_, fun t ht x hx => ?_⟩
    · obtain ⟨t, x, ht, hx⟩ := mem_places.1 hp
      exact ((mem_used_iff ht hx).1 (h _ hp)).1
    · obtain ⟨i, hi, rfl⟩ := List.getElem_of_mem ht
      obtain ⟨j, hj, rfl⟩ := List.getElem_of_mem hx
      have hi' := List.getElem?_eq_getElem hi
      have hj' := List.getElem?_eq_getElem hj
      exact ((mem_used_iff hi' hj').1 (h _ (mem_places.2 ⟨_, _, hi', hj'⟩))).2
  · rintro ⟨hfore, hall⟩ ⟨i, j⟩ hp
    obtain ⟨t, x, ht, hx⟩ := mem_places.1 hp
    exact (mem_used_iff ht hx).2
      ⟨hfore i j hp, hall t (List.mem_of_getElem? ht) x (List.mem_of_getElem? hx)⟩

/-- If nothing is listed in vain, the first section of a pair of builds lists all there is. -/
theorem Irredundant.mem_firstListed {b : Baseline} (h : b.Irredundant) {left right : String}
    {x : Suppression} : x ∈ b.firstListed left right ↔ x ∈ b.listed left right := by
  refine ⟨mem_listed_of_mem_firstListed, fun hx => ?_⟩
  obtain ⟨s, hs, hof, hxs⟩ := mem_listed.1 hx
  obtain ⟨i, hi⟩ := List.mem_iff_getElem?.1 hs
  have hfirst := map_counterpart? b s
  rw [pairwise_alone_iff.1 h.alone i s hi (List.ne_nil_of_mem hxs)] at hfirst
  obtain ⟨rfl, rfl⟩ := Section.isOf_iff.1 hof
  exact Baseline.mem_firstListed.2 ⟨s, hfirst.symm, hxs⟩

/-- Every suppression is listed for its section's names. -/
theorem mem_listed_self {b : Baseline} {s : Section} (hs : s ∈ b.sections) {x : Suppression}
    (hx : x ∈ s.suppressions) : x ∈ b.listed s.left s.right :=
  mem_listed.2 ⟨s, hs, s.isOf_self, hx⟩

/-! ## The law of subtraction -/

/-- What `b` lists and `other` does not is left, and `other` is known to list something besides
exactly if it does. -/
def Subtracts (b other : Baseline) : Prop :=
  (b.subtract other).1 = b.without other.listed ∧
    ((b.subtract other).2 = true ↔
      ∃ t ∈ other.sections, ∃ x ∈ t.suppressions, x ∉ b.listed t.left t.right)

theorem subtract_snd_iff {b other : Baseline} :
    (b.subtract other).2 = true ↔ ¬other.Irredundant ∨
      ∃ t ∈ other.sections, ∃ x ∈ t.suppressions, x ∉ b.listed t.left t.right := by
  rw [← Bool.not_eq_false, subtract_snd_eq_false_iff, Classical.not_and_iff_not_or_not]
  simp only [Classical.not_forall, exists_prop]

theorem Irredundant.subtracts {other : Baseline} (h : other.Irredundant) (b : Baseline) :
    b.Subtracts other := by
  refine ⟨?_, by rw [subtract_snd_iff, or_iff_right (not_not_intro h)]⟩
  rw [subtract_fst, without, without]
  simp only [h.mem_firstListed]

theorem Subtracts.irredundant {b : Baseline} (h : b.Subtracts b) : b.Irredundant := by
  refine Classical.byContradiction fun hn => ?_
  obtain ⟨t, ht, x, hx, hnot⟩ := h.2.1 (subtract_snd_iff.2 (.inl hn))
  exact hnot (mem_listed_self ht hx)

theorem without_listed (b : Baseline) : b.without b.listed = empty := by
  simp only [without, empty, Baseline.mk.injEq, List.filter_eq_nil_iff, List.mem_map]
  rintro _ ⟨s, hs, rfl⟩
  simpa using fun x hx => mem_listed_self hs hx

/-- What is left, and when something is known to be unneeded, for any two baselines; both are as
with sets, whatever is subtracted from, exactly if what is subtracted is irredundant, and exactly
then it leaves nothing of itself. -/
theorem subtract_law (other : Baseline) :
    (∀ b : Baseline, (b.subtract other).1 = b.without other.firstListed ∧
      ((b.subtract other).2 = true ↔ ¬other.Irredundant ∨
        ∃ t ∈ other.sections, ∃ x ∈ t.suppressions, x ∉ b.listed t.left t.right)) ∧
    (other.Irredundant ↔ ∀ b : Baseline, b.Subtracts other) ∧
    (other.Irredundant ↔ other.subtract other = (empty, false)) := by
  refine ⟨fun b => ⟨subtract_fst b other, subtract_snd_iff⟩,
    ⟨fun h b => h.subtracts b, fun h => (h other).irredundant⟩, fun h => ?_, fun h => ?_⟩
  · obtain ⟨hrest, -⟩ := h.subtracts other
    rw [without_listed] at hrest
    exact Prod.ext hrest (subtract_snd_eq_false_iff.2 ⟨h, fun t ht x hx => mem_listed_self ht hx⟩)
  · exact (subtract_snd_eq_false_iff.1 (congrArg Prod.snd h)).1

/-! ## Baselines that repeat themselves -/

/-- A suppression that is listed twice. -/
def repeating : Baseline :=
  let accepted : Suppression := ⟨.added, some "Tag", some "one"⟩
  ⟨[⟨"v1", "v2", [accepted, accepted]⟩]⟩

/-- Two sections of one pair of builds. -/
def divided : Baseline :=
  ⟨[⟨"v1", "v2", [⟨.added, some "Tag", some "one"⟩]⟩,
    ⟨"v1", "v2", [⟨.added, some "Tag", some "two"⟩]⟩]⟩

/-- A baseline that lists something twice is not needed by itself, and one with two sections of one
pair of builds is not taken away by itself. -/
theorem exists_subtract_self_ne :
    (repeating.subtract repeating = (empty, true) ∧ ¬repeating.Subtracts repeating) ∧
      (divided.subtract divided).1 ≠ empty ∧ ¬divided.Subtracts divided := by
  refine ⟨⟨by decide, fun h => ?_⟩, by decide, fun h => ?_⟩
  · exact absurd h.irredundant (by decide)
  · exact absurd (h.1.trans (without_listed divided)) (by decide)

end ApiEvolution.Baseline
