import ApiEvolution.Proofs.Baseline.Subtraction
import ApiEvolution.Proofs.Review.Answers

/-!
# What a section covers

A section takes out the differences that it lists (`Section.uncovered_eq`). Of its suppressions those
are unused that cover nothing found which none before them covers (`Section.unused_eq`), and there
are none exactly if it lists nothing twice and nothing that was not found
(`Section.unused_eq_nil_iff`). For a job of a review: what is left of its differences
(`Review.answer_eq_remaining`), what of the baseline it does not need (`Review.unneeded_eq`), and
when that is nothing (`Review.unneeded_eq_nil_iff`).
-/

namespace ApiEvolution

namespace Section

/-- What is not covered is what is not listed. -/
theorem uncovered_eq (s : Section) (ds : List Difference) :
    s.uncovered ds = ds.filter fun d => .ofDifference d ∉ s.suppressions := by
  simp only [uncovered, positionCovering?_eq, isNone_positionOf?]

/-- All differences are covered if they are all accepted. -/
theorem uncovered_eq_nil_iff {s : Section} {ds : List Difference} :
    s.uncovered ds = [] ↔ ∀ x ∈ ds.map Suppression.ofDifference, x ∈ s.suppressions := by
  simp only [uncovered_eq, List.filter_eq_nil_iff, List.forall_mem_map, decide_eq_true_eq,
    Classical.not_not]

theorem unused_eq_nil_iff_forall_mem {s : Section} {ds : List Difference} :
    s.unused ds = [] ↔ ∀ i < s.suppressions.length, i ∈ s.usedPositions ds := by
  simp only [unused, List.map_eq_nil_iff, List.filter_eq_nil_iff, Bool.not_eq_true',
    Bool.not_eq_false, List.contains_iff_mem]
  constructor
  · intro h i hi
    exact h (s.suppressions[i], i) (List.mem_zipIdx_iff_getElem?.2 (List.getElem?_eq_getElem hi))
  · intro h x hx
    exact h x.2 (List.getElem?_eq_some_iff.1 (List.mem_zipIdx_iff_getElem?.1 hx)).1

/-- All suppressions are needed if none of them is there twice and all are asked for. -/
theorem unused_eq_nil_iff {s : Section} {ds : List Difference} :
    s.unused ds = [] ↔ s.suppressions.Nodup ∧
      ∀ x ∈ s.suppressions, x ∈ ds.map Suppression.ofDifference := by
  rw [unused_eq_nil_iff_forall_mem, nodup_iff]
  simp only [usedPositions, List.mem_filterMap, positionCovering?_eq]
  constructor
  · intro h
    have hat {i : Nat} {x : Suppression} (hx : s.suppressions[i]? = some x) :
        s.positionOf? x = some i ∧ x ∈ ds.map Suppression.ofDifference := by
      obtain ⟨d, hd, hi⟩ := h i (List.getElem?_eq_some_iff.1 hx).1
      have hxd := (positionOf?_eq_some_iff.1 hi).1
      obtain rfl : x = .ofDifference d := Option.some.inj (hx.symm.trans hxd)
      exact ⟨hi, List.mem_map_of_mem hd⟩
    refine ⟨fun i x hx => (hat hx).1, fun x hx => ?_⟩
    obtain ⟨i, hx⟩ := List.mem_iff_getElem?.1 hx
    exact (hat hx).2
  · rintro ⟨hown, hall⟩ i hi
    obtain ⟨d, hd, he⟩ := List.mem_map.1 (hall _ (List.getElem_mem hi))
    exact ⟨d, hd, he ▸ hown i _ (List.getElem?_eq_getElem hi)⟩

/-- What is found is covered by the first suppression that covers it. -/
theorem positionCovering?_eq_some_iff {s : Section} {d : Difference} {x : Suppression} {i : Nat}
    (hx : s.suppressions[i]? = some x) :
    s.positionCovering? d = some i ↔ x.covers d ∧ ¬(s.suppressions.take i).any (·.covers d) := by
  obtain ⟨hi, rfl⟩ := List.getElem?_eq_some_iff.1 hx
  rw [positionCovering?, List.findIdx?_eq_some_iff_getElem]
  simp only [hi, exists_true_left, List.any_eq_true, List.mem_take_iff_getElem, not_exists, not_and]
  refine and_congr_right fun _ => ⟨fun h y hy hcovers => ?_, fun h k hk hcovers => ?_⟩
  · obtain ⟨k, hk, rfl⟩ := hy
    exact h k (by omega) hcovers
  · exact h _ ⟨k, by omega, rfl⟩ hcovers

/-- Unused is what covers nothing found that no suppression before it covers. -/
theorem unused_eq (s : Section) (ds : List Difference) :
    s.unused ds = (s.suppressions.zipIdx.filter fun x => ds.all fun d =>
      !x.1.covers d || (s.suppressions.take x.2).any (·.covers d)).map (·.1) := by
  refine congrArg (List.map Prod.fst) (List.filter_congr fun x hx => Bool.eq_iff_iff.2 ?_)
  have hused : x.2 ∈ s.usedPositions ds ↔
      ∃ d ∈ ds, x.1.covers d ∧ ¬(s.suppressions.take x.2).any (·.covers d) := by
    simp only [usedPositions, List.mem_filterMap,
      positionCovering?_eq_some_iff (List.mem_zipIdx_iff_getElem?.1 hx)]
  rw [Bool.not_eq_true', ← Bool.not_eq_true, List.contains_iff_mem, hused]
  grind

end Section

/-- The suppressions that accept what the job has found. -/
def ReviewedJob.accepted (j : ReviewedJob) : List Suppression :=
  j.raw.map .ofDifference

theorem ReviewedJob.accepted_eq_nil {j : ReviewedJob} : j.accepted = [] ↔ j.raw = [] :=
  List.map_eq_nil_iff

theorem ReviewedJob.not_mem_accepted {j : ReviewedJob} {x : Suppression} :
    x ∉ j.accepted ↔ ∀ d ∈ j.raw, ¬x.covers d := by
  simp only [accepted, List.mem_map, Suppression.covers_eq, beq_iff_eq, not_exists, not_and]
  exact ⟨fun h d hd e => h d hd e.symm, fun h d hd e => h d hd e.symm⟩

/-- The differences of a job that no suppression in the first section of its names covers. -/
def Baseline.remaining (b : Baseline) (j : Job) (ds : List Difference) : List Difference :=
  ds.filter fun d => !(b.firstListed j.left.name j.right.name).any (·.covers d)

theorem Baseline.mem_remaining {b : Baseline} {j : Job} {ds : List Difference} {d : Difference} :
    d ∈ b.remaining j ds ↔
      d ∈ ds ∧ ∀ x ∈ b.firstListed j.left.name j.right.name, ¬x.covers d := by
  simp only [remaining, List.mem_filter, Bool.not_eq_true', List.any_eq_false]

/-- The suppressions in the first section of the names of a job that cover nothing found that none
before them covers, in order. -/
def Baseline.unneeded (b : Baseline) (j : Job) (ds : List Difference) : List Suppression :=
  let listed := b.firstListed j.left.name j.right.name
  (listed.zipIdx.filter fun x =>
    ds.all fun d => !x.1.covers d || (listed.take x.2).any (·.covers d)).map (·.1)

namespace Review

/-- A job may as well be filtered by a section that lists nothing. -/
theorem elim_section? (r : Review) (j : Job) {α : Type} {x : α} {f : Section → α}
    (hf : ∀ s, s.suppressions = [] → f s = x) : (r.section? j).elim x f =
      ((r.baseline.getD .empty).section? j.left.name j.right.name).elim x f := by
  rw [section?]
  cases r.baseline with
  | none => rfl
  | some b =>
    rw [Option.bind_some, Option.getD_some]
    cases b.section? j.left.name j.right.name with
    | none => rfl
    | some s =>
      by_cases hs : s.suppressions = []
      · rw [Option.filter_some_neg (by simp [hs])]
        exact (hf s hs).symm
      · rw [Option.filter_some_pos (by simp [hs])]

theorem answer_eq_elim (r : Review) (j : ReviewedJob) : r.answer j =
    ((r.baseline.getD .empty).section? j.job.left.name j.job.right.name).elim j.raw
      fun s => s.uncovered j.raw := by
  rw [← elim_section? r j.job fun s hs => by simp [Section.uncovered_eq, hs], answer]
  cases r.section? j.job <;> rfl

theorem unneeded_eq_elim (r : Review) (j : ReviewedJob) : r.unneeded j =
    ((r.baseline.getD .empty).section? j.job.left.name j.job.right.name).elim []
      fun s => s.unused j.raw := by
  rw [← elim_section? r j.job fun s hs => by simp [Section.unused_eq, hs], unneeded]
  cases r.section? j.job <;> rfl

/-- What is left of the differences of a job; without a baseline, all of them are. -/
theorem answer_eq_remaining (r : Review) (j : ReviewedJob) :
    r.answer j = (r.baseline.getD .empty).remaining j.job j.raw := by
  rw [answer_eq_elim, Baseline.remaining, Baseline.firstListed]
  cases (r.baseline.getD .empty).section? j.job.left.name j.job.right.name with
  | none => exact (List.filter_eq_self.2 fun _ _ => rfl).symm
  | some s =>
    rw [Option.elim_some, Option.elim_some, Section.uncovered_eq]
    refine List.filter_congr fun d _ => Bool.eq_iff_iff.2 ?_
    simp only [Suppression.covers_eq, decide_eq_true_eq, Bool.not_eq_true', List.any_eq_false,
      beq_iff_eq]
    exact ⟨fun h x hx e => h (e ▸ hx), fun h hd => h _ hd rfl⟩

/-- What of the baseline a job does not need; without a baseline, that is nothing. -/
theorem unneeded_eq (r : Review) (j : ReviewedJob) :
    r.unneeded j = (r.baseline.getD .empty).unneeded j.job j.raw := by
  rw [unneeded_eq_elim, Baseline.unneeded, Baseline.firstListed]
  cases (r.baseline.getD .empty).section? j.job.left.name j.job.right.name with
  | none => rfl
  | some s => exact s.unused_eq j.raw

section
variable {r : Review} {b : Baseline} (hb : r.baseline = some b)
include hb

/-- What is left of the differences of a job is what the first section of its names does not list.
-/
theorem answer_eq (j : ReviewedJob) :
    r.answer j = j.raw.filter fun d =>
      .ofDifference d ∉ b.firstListed j.job.left.name j.job.right.name := by
  rw [answer_eq_elim, hb, Option.getD_some, Baseline.firstListed]
  cases b.section? j.job.left.name j.job.right.name with
  | none => exact (List.filter_eq_self.2 fun _ _ => by simp).symm
  | some s => exact s.uncovered_eq j.raw

/-- The first section of the names of a job has something unneeded if it lists something twice, or
something that covers nothing that the job has found. -/
theorem unneeded_eq_nil_iff (j : ReviewedJob) :
    r.unneeded j = [] ↔ ∀ s, b.section? j.job.left.name j.job.right.name = some s →
      s.suppressions.Nodup ∧ ∀ x ∈ s.suppressions, x ∈ j.accepted := by
  rw [unneeded_eq_elim, hb, Option.getD_some]
  cases b.section? j.job.left.name j.job.right.name with
  | none => simp
  | some s => simp [Section.unused_eq_nil_iff, ReviewedJob.accepted]

end

end Review

end ApiEvolution
