import ApiEvolution.Baseline.Basic

/-!
# Sorting

Names, sections and suppressions are ordered by comparisons that are total and transitive, so
sorting by them does what one expects, and elements that may stand in any order keep theirs
(`filter_mergeSort`), by which a sorted list is determined (`eq_of_forall_filter_eq`). Suppressions
that may stand in any order are equal (`Suppression.eq_of_order_isLE`), while sections may be
different ones of equal names.

For baselines: sorting changes neither the order of the sections of a pair of builds
(`filter_sorted`) nor, up to order, what they list, and sorted baselines are the same if these are
(`sorted_eq_sorted_iff`). The baseline made of findings has for a pair of builds what the first of
its findings with any differences says (`section?_ofDifferences`).
-/

namespace ApiEvolution

/-! ## Orders -/

section
variable {α : Type} {cmp : α → α → Ordering} (hcmp : Std.TransCmp cmp)
include hcmp

theorem isLE_trans (a b c : α) (hab : (cmp a b).isLE) (hbc : (cmp b c).isLE) : (cmp a c).isLE :=
  hcmp.isLE_trans hab hbc

theorem isLE_total (a b : α) : (cmp a b).isLE || (cmp b a).isLE := by
  rw [hcmp.eq_swap (a := b)]
  cases cmp a b <;> rfl

theorem pairwise_mergeSort (xs : List α) :
    (xs.mergeSort fun a b => (cmp a b).isLE).Pairwise fun a b => (cmp a b).isLE :=
  List.pairwise_mergeSort (isLE_trans hcmp) (isLE_total hcmp) xs

/-- Sorting keeps the order of elements that may stand in any order. -/
theorem filter_mergeSort {p : α → Bool} (hp : ∀ a b, p a → p b → (cmp a b).isLE) (xs : List α) :
    (xs.mergeSort fun a b => (cmp a b).isLE).filter p = xs.filter p := by
  have hpair : (xs.filter p).Pairwise (fun a b => (cmp a b).isLE) :=
    List.pairwise_of_forall_mem_list fun a ha b hb =>
      hp a b (List.mem_filter.1 ha).2 (List.mem_filter.1 hb).2
  have hsub := (List.sublist_mergeSort (isLE_trans hcmp) (isLE_total hcmp) hpair
    List.filter_sublist).filter p
  simp only [List.filter_filter, Bool.and_self] at hsub
  have hlen : ((xs.mergeSort fun a b => (cmp a b).isLE).filter p).length = (xs.filter p).length :=
    ((List.mergeSort_perm xs _).filter p).length_eq
  exact (hsub.eq_of_length hlen.symm).symm

/-- Sorted lists are the same if they have the same elements of each kind in the same order, where
elements that may stand in any order are of one kind. -/
theorem eq_of_forall_filter_eq {κ : Type} {p : κ → α → Bool} (kind : α → κ)
    (hkind : ∀ a, p (kind a) a) (htie : ∀ a b, cmp a b = .eq → p (kind a) b) {xs ys : List α}
    (hxs : xs.Pairwise fun a b => (cmp a b).isLE) (hys : ys.Pairwise fun a b => (cmp a b).isLE)
    (h : ∀ k, xs.filter (p k) = ys.filter (p k)) : xs = ys := by
  induction xs generalizing ys with
  | nil =>
    cases ys with
    | nil => rfl
    | cons b ys => exact absurd (h (kind b)) (by simp [hkind])
  | cons a xs ih =>
    cases ys with
    | nil => exact absurd (h (kind a)) (by simp [hkind])
    | cons b ys =>
      obtain ⟨ha, hxs'⟩ := List.pairwise_cons.1 hxs
      obtain ⟨hb, hys'⟩ := List.pairwise_cons.1 hys
      -- each of the two heads stands in the other list, hence neither is before the other
      have hmem (c : α) : c ∈ a :: xs ↔ c ∈ b :: ys := by
        have hc := congrArg (c ∈ ·) (h (kind c))
        simpa only [List.mem_filter, hkind, and_true, eq_iff_iff] using hc
      have hab : a = b := by
        rcases List.mem_cons.1 ((hmem a).1 List.mem_cons_self) with hab | hay
        · exact hab
        rcases List.mem_cons.1 ((hmem b).2 List.mem_cons_self) with hba | hbx
        · exact hba.symm
        have hk := h (kind a)
        have hbk := htie a b (hcmp.toOrientedCmp.isLE_antisymm (ha b hbx) (hb a hay))
        rw [List.filter_cons_of_pos (hkind a), List.filter_cons_of_pos hbk] at hk
        exact (List.cons.inj hk).1
      subst hab
      refine congrArg (a :: ·) (ih hxs' hys' fun k => ?_)
      have hk := h k
      simp only [List.filter_cons] at hk
      split at hk
      · exact (List.cons.inj hk).2
      · exact hk

/-- Comparing by a property. -/
theorem transCmp_on {β : Type} (f : β → α) : Std.TransCmp fun a b => cmp (f a) (f b) where
  eq_swap := hcmp.eq_swap
  isLE_trans := hcmp.isLE_trans

end

/-! ## The order of names and of suppressions -/

namespace Text

theorem transCmp_order : Std.TransCmp order where
  eq_swap := (order_swap _ _).symm
  isLE_trans := order_isLE_trans

theorem isLE_orderNat {m n : Nat} : (orderNat m n).isLE ↔ m ≤ n := by
  unfold orderNat
  split
  · simp; omega
  · split <;> simp <;> omega

theorem transCmp_orderNat : Std.TransCmp orderNat where
  eq_swap := (orderNat_swap _ _).symm
  isLE_trans h h' := isLE_orderNat.2 (Nat.le_trans (isLE_orderNat.1 h) (isLE_orderNat.1 h'))

theorem orderOption_swap (s t : Option String) : (orderOption s t).swap = orderOption t s := by
  cases s <;> cases t <;> simp [orderOption, order_swap]

theorem orderOption_eq_eq_iff {s t : Option String} : orderOption s t = .eq ↔ s = t := by
  cases s <;> cases t <;> simp [orderOption, order_eq_eq_iff]

theorem transCmp_orderOption : Std.TransCmp orderOption where
  eq_swap := (orderOption_swap _ _).symm
  isLE_trans {s t u} h h' := by
    cases s <;> cases t <;> cases u <;> simp [orderOption] at h h' ⊢
    exact order_isLE_trans h h'

theorem transCmp_orderPair : Std.TransCmp orderPair := by
  have hfst := transCmp_on transCmp_order (Prod.fst (α := String) (β := String))
  have hsnd := transCmp_on transCmp_order (Prod.snd (α := String) (β := String))
  exact inferInstanceAs (Std.TransCmp (compareLex (fun s t : String × String => order s.1 t.1)
    fun s t => order s.2 t.2))

theorem orderPair_eq_eq_iff {s t : String × String} : orderPair s t = .eq ↔ s = t := by
  simp only [orderPair, Ordering.then_eq_eq, order_eq_eq_iff, Prod.ext_iff]

end Text

namespace Change

theorem rank_inj {c d : Change} : c.rank = d.rank ↔ c = d := by
  cases c <;> cases d <;> decide

end Change

namespace Suppression

theorem transCmp_order : Std.TransCmp order := by
  have hchange := transCmp_on Text.transCmp_orderNat fun s : Suppression => s.change.rank
  have htypeName := transCmp_on Text.transCmp_orderOption Suppression.typeName
  have hmessage := transCmp_on Text.transCmp_orderOption Suppression.message
  exact inferInstanceAs (Std.TransCmp (compareLex
    (fun s t : Suppression => Text.orderNat s.change.rank t.change.rank)
    (compareLex (fun s t => Text.orderOption s.typeName t.typeName)
      fun s t => Text.orderOption s.message t.message)))

theorem order_eq_eq_iff {s t : Suppression} : s.order t = .eq ↔ s = t := by
  cases s
  cases t
  simp only [order, Ordering.then_eq_eq, Text.orderNat_eq_eq_iff, Text.orderOption_eq_eq_iff,
    Change.rank_inj, mk.injEq]

/-- Equal suppressions apart, of two suppressions one has to stand first. -/
theorem eq_of_order_isLE {s t : Suppression} (h : (s.order t).isLE) (h' : (t.order s).isLE) :
    s = t :=
  order_eq_eq_iff.1 (transCmp_order.toOrientedCmp.isLE_antisymm h h')

end Suppression

/-! ## Sorted baselines -/

namespace Section

/-- Sorting a section only reorders its suppressions. -/
theorem sorted_perm (s : Section) : s.sorted.suppressions.Perm s.suppressions :=
  List.mergeSort_perm _ _

theorem pairwise_sorted (s : Section) :
    s.sorted.suppressions.Pairwise fun x y => (x.order y).isLE :=
  pairwise_mergeSort Suppression.transCmp_order _

/-- There is one order in which suppressions are sorted. -/
theorem suppressions_eq_of_perm {xs ys : List Suppression} (h : xs.Perm ys)
    (hxs : xs.Pairwise fun x y => (x.order y).isLE)
    (hys : ys.Pairwise fun x y => (x.order y).isLE) : xs = ys :=
  h.eq_of_pairwise (fun _ _ _ _ => Suppression.eq_of_order_isLE) hxs hys

/-- Some of the suppressions, sorted before or after they are picked out. -/
theorem sorted_filter (s : Section) (p : Suppression → Bool) :
    { s with suppressions := s.suppressions.filter p }.sorted =
      { s.sorted with suppressions := s.sorted.suppressions.filter p } := by
  have hperm := (sorted_perm { s with suppressions := s.suppressions.filter p }).trans
    (s.sorted_perm.filter p).symm
  exact congrArg (Section.mk s.left s.right)
    (suppressions_eq_of_perm hperm (pairwise_sorted _) (s.pairwise_sorted.filter p))

theorem transCmp_order : Std.TransCmp order :=
  transCmp_on Text.transCmp_orderPair fun s : Section => (s.left, s.right)

theorem order_eq_eq_iff {s t : Section} : s.order t = .eq ↔ s.isOf t.left t.right := by
  rw [order, Text.orderPair_eq_eq_iff, Prod.mk.injEq, isOf_iff]

/-- Sections of one pair of builds may stand in any order. -/
theorem order_isLE_of_isOf {left right : String} {s t : Section} (hs : s.isOf left right)
    (ht : t.isOf left right) : (s.order t).isLE := by
  obtain ⟨rfl, rfl⟩ := isOf_iff.1 ht
  rw [order_eq_eq_iff.2 hs]
  rfl

end Section

namespace Baseline

/-- The sections of one pair of builds keep their order. -/
theorem filter_sorted (b : Baseline) (left right : String) :
    b.sorted.sections.filter (Section.isOf left right) =
      (b.sections.filter (Section.isOf left right)).map Section.sorted := by
  have hf : (Section.isOf left right ∘ Section.sorted) = Section.isOf left right := rfl
  rw [sorted, List.filter_map, hf, filter_mergeSort Section.transCmp_order]
  exact fun _ _ => Section.order_isLE_of_isOf

theorem section?_sorted (b : Baseline) (left right : String) :
    b.sorted.section? left right = (b.section? left right).map Section.sorted := by
  rw [section?, section?, ← List.head?_filter, ← List.head?_filter, filter_sorted, List.head?_map]

theorem pairwise_sorted (b : Baseline) :
    b.sorted.sections.Pairwise fun s t => (s.order t).isLE := by
  exact (pairwise_mergeSort Section.transCmp_order _).map Section.sorted fun _ _ h => h

/-- Sorting gives the same sections for baselines that have the same sections for each pair of
builds, in the same order. -/
theorem sorted_eq_sorted_iff {b c : Baseline} : b.sorted = c.sorted ↔ ∀ left right,
    (b.sections.filter (Section.isOf left right)).map Section.sorted =
      (c.sections.filter (Section.isOf left right)).map Section.sorted := by
  constructor
  · intro h left right
    rw [← filter_sorted, h, filter_sorted]
  · intro h
    have hsections : b.sorted.sections = c.sorted.sections :=
      eq_of_forall_filter_eq Section.transCmp_order
        (p := fun k : String × String => Section.isOf k.1 k.2) (fun s => (s.left, s.right))
        Section.isOf_self (fun s t h => Section.isOf_comm.1 (Section.order_eq_eq_iff.1 h))
        b.pairwise_sorted c.pairwise_sorted fun k => by rw [filter_sorted, filter_sorted, h]
    exact congrArg Baseline.mk hsections

/-- Sorting neither adds nor drops names of sections. -/
theorem mem_sorted {b : Baseline} {t : Section} :
    t ∈ b.sorted.sections ↔ ∃ s ∈ b.sections, s.sorted = t := by
  simp [sorted]

/-! ## Baselines made of findings -/

/-- The section that accepts the differences of one finding. -/
def sectionOf (f : String × String × List Difference) : Section :=
  ⟨f.1, f.2.1, f.2.2.map Suppression.ofDifference⟩

theorem sections_accept (b : Baseline) (f : String × String × List Difference) :
    (b.accept f.1 f.2.1 f.2.2).sections =
      b.sections ++ ([f].filter fun f => !f.2.2.isEmpty).map sectionOf := by
  obtain ⟨left, right, ds⟩ := f
  cases ds <;> simp [accept, sectionOf]

theorem sections_foldl_accept (found : List (String × String × List Difference)) (b : Baseline) :
    (found.foldl (fun b f => b.accept f.1 f.2.1 f.2.2) b).sections =
      b.sections ++ (found.filter fun f => !f.2.2.isEmpty).map sectionOf := by
  induction found generalizing b with
  | nil => simp
  | cons f found ih =>
    rw [List.foldl_cons, ih, sections_accept, List.append_assoc, ← List.map_append,
      ← List.filter_append, List.singleton_append]

/-- The section of a pair of builds accepts what the first of its findings with any differences
says. -/
theorem section?_ofDifferences (found : List (String × String × List Difference))
    (left right : String) :
    (ofDifferences found).section? left right =
      (found.find? fun f => !f.2.2.isEmpty && (f.1 == left && f.2.1 == right)).map
        fun f => (sectionOf f).sorted := by
  have hf : (Section.isOf left right ∘ sectionOf) = fun f => f.1 == left && f.2.1 == right := rfl
  rw [ofDifferences, section?_sorted, section?, sections_foldl_accept]
  simp only [empty, List.nil_append]
  rw [List.find?_map, hf, List.find?_filter, Option.map_map]
  simp only [Bool.decide_and, Bool.decide_eq_true]
  rfl

/-- The sections of the baseline are those of the findings with any differences. -/
theorem mem_ofDifferences_iff {found : List (String × String × List Difference)} {s : Section} :
    s ∈ (ofDifferences found).sections ↔ ∃ f ∈ found, f.2.2 ≠ [] ∧ (sectionOf f).sorted = s := by
  simp only [ofDifferences, mem_sorted, sections_foldl_accept, empty, List.nil_append,
    List.mem_map, List.mem_filter, Bool.not_eq_true', List.isEmpty_eq_false_iff]
  constructor
  · rintro ⟨_, ⟨f, ⟨hf, hne⟩, rfl⟩, hs⟩
    exact ⟨f, hf, hne, hs⟩
  · rintro ⟨f, hf, hne, hs⟩
    exact ⟨_, ⟨f, ⟨hf, hne⟩, rfl⟩, hs⟩

theorem mem_ofDifferences {found : List (String × String × List Difference)} {s : Section}
    (h : s ∈ (ofDifferences found).sections) :
    ∃ f ∈ found, f.1 = s.left ∧ f.2.1 = s.right := by
  obtain ⟨f, hf, -, rfl⟩ := mem_ofDifferences_iff.1 h
  exact ⟨f, hf, rfl, rfl⟩

/-- Findings in the order of their names give the sections in this order. -/
theorem sections_ofDifferences {found : List (String × String × List Difference)}
    (h : found.Pairwise fun f g => (Text.orderPair (f.1, f.2.1) (g.1, g.2.1)).isLE) :
    (ofDifferences found).sections =
      (found.filter fun f => !f.2.2.isEmpty).map fun f => (sectionOf f).sorted := by
  have hpair : ((found.filter fun f => !f.2.2.isEmpty).map sectionOf).Pairwise fun s t =>
      (s.order t).isLE := (h.filter _).map sectionOf fun _ _ hfg => hfg
  rw [ofDifferences, sorted, sections_foldl_accept, empty, List.nil_append,
    List.mergeSort_of_pairwise hpair, List.map_map]
  rfl

end Baseline

end ApiEvolution
