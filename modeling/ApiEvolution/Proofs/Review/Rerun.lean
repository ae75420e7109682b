import Mathlib
import ApiEvolution.Proofs.Baseline.Sorting
import ApiEvolution.Proofs.Baseline.WrittenForm
import ApiEvolution.Proofs.Review.Coverage
import ApiEvolution.Proofs.Run.Completion
import ApiEvolution.Surface.Declaration

/-!
# Running again against what was accepted

A run is done a second time, with the baseline that accepts everything the first one has found.
Nothing is left to report, and nothing in the baseline is not needed, if and only if the findings
are `Review.Unambiguous`: jobs of equal names accept the same, and the first of them accepts nothing
twice. Otherwise a suppression stands behind an equal one, or belongs to another job.

The main statement is `RunRequest.isClean_rerun_iff`.
-/

namespace ApiEvolution

/-! ## Findings -/

namespace Review

/-- Jobs of equal names accept the same, and the first of them accepts nothing twice. -/
structure Unambiguous (r : Review) : Prop where
  agree : ∀ i ∈ r.jobs, ∀ j ∈ r.jobs, j.job.isOf i.job.left.name i.job.right.name →
    ∀ x ∈ i.accepted, x ∈ j.accepted
  once : ∀ left right j, r.jobs.find? (fun j => j.job.isOf left right) = some j → j.accepted.Nodup

/-- Whatever was asked before, no difference is left and nothing in the baseline is not needed. -/
def IsClean (r : Review) : Prop :=
  ∀ asked : List Nat, let asked := ((asked.mapM differences).run r).2
    (∀ i < r.jobs.length, ((differences i).run asked).1 = some []) ∧
      (hasUnused.run asked).1 = false

/-- The first job of these names that has found anything. -/
def accepting? (r : Review) (left right : String) : Option ReviewedJob :=
  r.jobs.find? fun j => !j.raw.isEmpty && j.job.isOf left right

theorem of_accepting? {r : Review} {left right : String} {j : ReviewedJob}
    (h : r.accepting? left right = some j) :
    j ∈ r.jobs ∧ j.raw ≠ [] ∧ j.job.left.name = left ∧ j.job.right.name = right := by
  have hp := List.find?_some h
  simp only [Job.isOf, Bool.and_eq_true, Bool.not_eq_true', List.isEmpty_eq_false_iff,
    beq_iff_eq] at hp
  exact ⟨List.mem_of_find?_eq_some h, hp⟩

/-- The first job of these names, if it has found anything. -/
theorem accepting?_of_find? {r : Review} {left right : String} {j : ReviewedJob}
    (h : r.jobs.find? (fun j => j.job.isOf left right) = some j) (hraw : j.raw ≠ []) :
    r.accepting? left right = some j := by
  obtain ⟨hj, before, behind, hjobs, hbefore⟩ := List.find?_eq_some_iff_append.1 h
  refine List.find?_eq_some_iff_append.2 ⟨?_, before, behind, hjobs, fun i hi => ?_⟩
  · simp [hraw, hj]
  · have hno := hbefore i hi
    simp only [Bool.not_eq_true'] at hno
    simp [hno]

/-- A job has found nothing if no job of its names has. -/
theorem raw_of_accepting?_eq_none {r : Review} {j : ReviewedJob} (hj : j ∈ r.jobs)
    (h : r.accepting? j.job.left.name j.job.right.name = none) : j.raw = [] := by
  have hnot := List.find?_eq_none.1 h j hj
  simpa [Job.isOf] using hnot

/-- Findings are unambiguous if every job agrees with the first one of its names that has found
anything, and that one accepts nothing twice. -/
theorem unambiguous_iff {r : Review} : r.Unambiguous ↔
    ∀ j ∈ r.jobs, ∀ i, r.accepting? j.job.left.name j.job.right.name = some i →
      i.accepted.Nodup ∧ ∀ x, x ∈ j.accepted ↔ x ∈ i.accepted := by
  constructor
  · intro h j hj i hi
    obtain ⟨him, hne, hleft, hright⟩ := of_accepting? hi
    refine ⟨?_, fun x => ⟨h.agree j hj i him (by simp [Job.isOf, hleft, hright]) x,
      h.agree i him j hj (by simp [Job.isOf, hleft, hright]) x⟩⟩
    -- the first job of these names agrees with `i`, so it has found something and is `i`
    cases hf : r.jobs.find? (fun k => k.job.isOf j.job.left.name j.job.right.name) with
    | none => exact absurd (by simp [Job.isOf]) (List.find?_eq_none.1 hf j hj)
    | some k =>
      have hk := List.find?_some hf
      simp only [Job.isOf, Bool.and_eq_true, beq_iff_eq] at hk
      have hraw : k.raw ≠ [] := fun hnil => by
        obtain ⟨x, hx⟩ := List.exists_mem_of_ne_nil _ (mt ReviewedJob.accepted_eq_nil.1 hne)
        have hin := h.agree i him k (List.mem_of_find?_eq_some hf)
          (by simp [Job.isOf, hk, hleft, hright]) x hx
        rw [ReviewedJob.accepted_eq_nil.2 hnil] at hin
        cases hin
      rw [accepting?_of_find? hf hraw] at hi
      cases hi
      exact h.once _ _ _ hf
  · intro h
    refine ⟨fun i hi j hj hij x hx => ?_, fun left right j hj => ?_⟩
    · simp only [Job.isOf, Bool.and_eq_true, beq_iff_eq] at hij
      cases ha : r.accepting? i.job.left.name i.job.right.name with
      | none =>
        rw [ReviewedJob.accepted_eq_nil.2 (raw_of_accepting?_eq_none hi ha)] at hx
        cases hx
      | some k => exact ((h j hj k (by rw [hij.1, hij.2, ha])).2 x).2 (((h i hi k ha).2 x).1 hx)
    · by_cases hraw : j.raw = []
      · rw [ReviewedJob.accepted_eq_nil.2 hraw]
        exact List.nodup_nil
      · have hk := List.find?_some hj
        simp only [Job.isOf, Bool.and_eq_true, beq_iff_eq] at hk
        refine (h j (List.mem_of_find?_eq_some hj) j ?_).1
        rw [hk.1, hk.2]
        exact accepting?_of_find? hj hraw

/-! ## The second run -/

theorem job_mem_of_mem_ofOutputs {jobs : List Job} {outputs : List Output} {b : Option Baseline}
    {j : ReviewedJob} (h : j ∈ (ofOutputs jobs outputs b).jobs) : j.job ∈ jobs := by
  obtain ⟨i, hi, rfl⟩ := List.getElem_of_mem h
  simp [ofOutputs]

/-- A review that begins fresh is clean if no job has anything left and nothing is not needed. -/
theorem isClean_iff {r : Review} (hr : r.IsFresh) :
    r.IsClean ↔ (∀ j ∈ r.jobs, r.answer j = []) ∧ r.foundUnused = false := by
  simp only [IsClean, run_mapM_differences hr, differences_after hr, hasUnused_after hr]
  constructor
  · intro h
    obtain ⟨hdiff, hunused⟩ := h []
    refine ⟨fun j hj => ?_, hunused⟩
    obtain ⟨i, hi, rfl⟩ := List.getElem_of_mem hj
    simpa [List.getElem?_eq_getElem hi] using hdiff i hi
  · rintro ⟨hdiff, hunused⟩ -
    refine ⟨fun i hi => ?_, hunused⟩
    rw [List.getElem?_eq_getElem hi, Option.map_some, hdiff _ (List.getElem_mem hi)]

/-- The baseline that accepts everything, as it is read back, has for the names of a job the section
of the first job of these names that has found anything. -/
theorem section?_acceptingBaseline (r : Review) (left right : String) :
    r.acceptingBaseline.sorted.section? left right = (r.accepting? left right).map fun j =>
      (Section.mk left right j.accepted).sorted.sorted := by
  have hfind : ((fun f : String × String × List Difference =>
      !f.2.2.isEmpty && (f.1 == left && f.2.1 == right)) ∘ fun j : ReviewedJob =>
        (j.job.left.name, j.job.right.name, j.raw)) =
      fun j => !j.raw.isEmpty && j.job.isOf left right := rfl
  rw [Baseline.section?_sorted, acceptingBaseline, Baseline.section?_ofDifferences, List.find?_map,
    hfind, Option.map_map, Option.map_map]
  refine Option.map_congr fun j hj => ?_
  obtain ⟨-, -, hleft, hright⟩ := of_accepting? hj
  simp only [Function.comp_apply, Baseline.sectionOf, hleft, hright]
  rfl

/-- Every section of the baseline that accepts everything belongs to a job. -/
theorem hasOrphan_acceptingBaseline {r : Review} {jobs : List Job}
    (h : ∀ j ∈ r.jobs, j.job ∈ jobs) : hasOrphan jobs r.acceptingBaseline.sorted = false := by
  simp only [hasOrphan, List.any_eq_false, Bool.not_eq_true', List.any_eq_false]
  intro t ht hall
  obtain ⟨s, hs, rfl⟩ := Baseline.mem_sorted.1 ht
  obtain ⟨f, hf, hleft, hright⟩ := Baseline.mem_ofDifferences hs
  obtain ⟨j, hj, rfl⟩ := List.mem_map.1 hf
  exact hall j.job (h j hj) (by simp [Job.isOf, Section.sorted, ← hleft, ← hright])

/-- A section lists what a job accepts, in some order. -/
theorem clean_of_section {r : Review} {j i : ReviewedJob} {s : Section}
    (hs : r.section? j.job = some s) (hperm : s.suppressions.Perm i.accepted) :
    (r.answer j = [] ∧ r.unneeded j = []) ↔
      i.accepted.Nodup ∧ ∀ x, x ∈ j.accepted ↔ x ∈ i.accepted := by
  simp only [answer, unneeded, hs, Section.uncovered_eq_nil_iff, Section.unused_eq_nil_iff,
    hperm.nodup_iff, hperm.mem_iff]
  constructor
  · rintro ⟨h, hnodup, h'⟩
    exact ⟨hnodup, fun x => ⟨h x, h' x⟩⟩
  · rintro ⟨hnodup, h⟩
    exact ⟨fun x => (h x).1, hnodup, fun x => (h x).2⟩

/-- A review of the same findings against the baseline that accepts them. -/
theorem isClean_iff_unambiguous {r r' : Review} (hfresh : r'.IsFresh) (hjobs : r'.jobs = r.jobs)
    (hbaseline : r'.baseline = some r.acceptingBaseline.sorted) (hseen : r'.unusedSeen = false) :
    r'.IsClean ↔ r.Unambiguous := by
  have hsection (j : ReviewedJob) : r'.section? j.job =
      (r.accepting? j.job.left.name j.job.right.name).map fun i =>
        (Section.mk j.job.left.name j.job.right.name i.accepted).sorted.sorted := by
    rw [section?, hbaseline, Option.bind_some, section?_acceptingBaseline]
    cases ha : r.accepting? j.job.left.name j.job.right.name with
    | none => rfl
    | some i =>
      obtain ⟨-, hne, -⟩ := of_accepting? ha
      have hperm := (Section.sorted_perm _).trans
        (Section.sorted_perm ⟨j.job.left.name, j.job.right.name, i.accepted⟩)
      have hfull : (Section.mk j.job.left.name j.job.right.name
          i.accepted).sorted.sorted.suppressions ≠ [] := fun hnil => by
        rw [hnil] at hperm
        exact hne (ReviewedJob.accepted_eq_nil.1 hperm.nil_eq.symm)
      rw [Option.map_some, Option.filter_some, if_pos]
      simpa using hfull
  have hjob : ∀ j ∈ r.jobs, (r'.answer j = [] ∧ r'.unneeded j = []) ↔
      ∀ i, r.accepting? j.job.left.name j.job.right.name = some i →
        i.accepted.Nodup ∧ ∀ x, x ∈ j.accepted ↔ x ∈ i.accepted := by
    intro j hj
    cases ha : r.accepting? j.job.left.name j.job.right.name with
    | none =>
      have hs : r'.section? j.job = none := by rw [hsection, ha]; rfl
      simp [answer, unneeded, hs, raw_of_accepting?_eq_none hj ha]
    | some i =>
      have hs := hsection j
      rw [ha, Option.map_some] at hs
      rw [clean_of_section hs ((Section.sorted_perm _).trans (Section.sorted_perm _))]
      simp
  rw [isClean_iff hfresh, unambiguous_iff, hjobs]
  simp only [foundUnused, hseen, hjobs, Bool.false_or, List.any_eq_false, Bool.not_eq_true',
    Bool.not_eq_false, List.isEmpty_iff]
  constructor
  · intro h j hj
    exact (hjob j hj).1 ⟨h.1 j hj, h.2 j hj⟩
  · intro h
    exact ⟨fun j hj => ((hjob j hj).2 (h j hj)).1, fun j hj => ((hjob j hj).2 (h j hj)).2⟩

end Review

/-! ## Runs -/

namespace RunRequest

/-- The same jobs, and a baseline to review them against. -/
def against (q : RunRequest) (b : Baseline) : RunRequest :=
  { q with baseline := some b }

theorem executeBy_against {q : RunRequest} {s : Schedule} {r : Review} (b : Baseline)
    (h : q.executeBy s (outcomeOf q.runs) = .ok r) :
    ∃ r', (q.against b).executeBy s (outcomeOf (q.against b).runs) = .ok r' := by
  obtain ⟨outputs, ho, -⟩ := executeBy_eq_ok h
  refine ⟨.ofOutputs (Job.sorted q.jobs) outputs (some b), ?_⟩
  have ho' : ((Execution.start (Job.sorted (q.against b).jobs).length (q.against b).cancelled).run
      (outcomeOf (q.against b).runs) s).collect = .ok outputs := ho
  simp only [executeBy, ho']
  rfl

/-- However the two runs were scheduled, the second one is clean if the findings of the first one
are unambiguous, and only then. -/
theorem isClean_against_iff {q : RunRequest} {s s' : Schedule} {r r' : Review}
    (h : q.executeBy s (outcomeOf q.runs) = .ok r)
    (h' : (q.against r.acceptingBaseline.sorted).executeBy s'
      (outcomeOf (q.against r.acceptingBaseline.sorted).runs) = .ok r') :
    r'.IsClean ↔ r.Unambiguous := by
  obtain ⟨outputs, ho, hr⟩ := executeBy_eq_ok h
  obtain ⟨outputs', ho', hr'⟩ := executeBy_eq_ok h'
  have hsame : outputs' = outputs := Execution.collect_run_eq ho' ho
  refine Review.isClean_iff_unambiguous ?_ ?_ ?_ ?_
  · rw [hr']
    exact Review.isFresh_ofOutputs _ _ _
  · rw [hr', hr, hsame]
    rfl
  · rw [hr']
    rfl
  · rw [hr']
    refine Review.hasOrphan_acceptingBaseline fun j hj => ?_
    rw [hr] at hj
    exact Review.job_mem_of_mem_ofOutputs hj

/-! ## A finding that is made twice -/

/-- A class with two type parameters of one name. -/
def pairLibrary (flags : UInt32) : Assembly :=
  let parameter : GenericDeclaration := { name := "T", flags }
  let type := ((TypeDeclaration.publicClass "Lib" "Pair").generic parameter).generic parameter
  let name : AssemblyName := ⟨"Lib", .zero, none⟩
  AssemblyDeclaration.build ⟨name, [AssemblyDeclaration.mainModule name [type] []]⟩

/-- Both parameters gain the same constraint. -/
def pairRequest : RunRequest where
  read p := .ok <| pairLibrary <| if p.text = "old" then 0 else GenericParameter.referenceTypeFlag
  jobs := [⟨⟨"v1", ⟨"old"⟩, []⟩, ⟨"v2", ⟨"new"⟩, []⟩⟩]

def pairDifference : Difference :=
  .constraint .added "Lib.Pair" "T" "class"

def pairReview : Review :=
  ⟨[⟨⟨⟨"v1", ⟨"old"⟩, []⟩, ⟨"v2", ⟨"new"⟩, []⟩⟩, [pairDifference, pairDifference], [], none⟩], none,
    false⟩

theorem execute_pairRequest : pairRequest.execute = .ok pairReview := by
  have hjobs : Job.sorted pairRequest.jobs = [⟨⟨"v1", ⟨"old"⟩, []⟩, ⟨"v2", ⟨"new"⟩, []⟩⟩] :=
    List.mergeSort_singleton _
  have hruns : pairRequest.runs =
      [(.ok ⟨[pairDifference, pairDifference], []⟩, [⟨"old"⟩, ⟨"new"⟩])] := by
    rw [runs, hjobs]
    cbv
  rw [execute, hruns, executeBy, hjobs]
  rfl

end RunRequest

end ApiEvolution
