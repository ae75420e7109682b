import ApiEvolution.Proofs.Baseline.Sorting
import ApiEvolution.Proofs.Review.Coverage

/-!
# What of a baseline a review does not need

A review is asked whether its baseline lists anything unneeded: it says so if a section belongs to
no job (`Orphaned`), or if the section that some job is filtered by lists something twice or
something that this job has not found (`Noticed`). That is to find what no job of its names has
found (`Idle`), and it does if the baseline lists nothing in vain and jobs of equal names have found
the same of what it lists.

The main statement is `hasUnused_exact`.
-/

namespace ApiEvolution.Review

/-- A section belongs to no job. -/
def Orphaned (r : Review) (b : Baseline) : Prop :=
  ∃ s ∈ b.sections, ∀ j ∈ r.jobs, ¬j.job.isOf s.left s.right

/-- A suppression covers nothing that any job of its names has found. -/
def Idle (r : Review) (b : Baseline) : Prop :=
  ∃ s ∈ b.sections, ∃ x ∈ s.suppressions,
    ∀ j ∈ r.jobs, j.job.isOf s.left s.right → ∀ d ∈ j.raw, ¬x.covers d

/-- The first section of the names of some job lists something twice, or something that covers
nothing that this job has found. -/
def Noticed (r : Review) (b : Baseline) : Prop :=
  ∃ j ∈ r.jobs, ∃ s, b.section? j.job.left.name j.job.right.name = some s ∧
    (¬s.suppressions.Nodup ∨ ∃ x ∈ s.suppressions, ∀ d ∈ j.raw, ¬x.covers d)

/-- Of what the baseline lists, jobs of equal names have found the same. -/
def FindAlike (r : Review) (b : Baseline) : Prop :=
  ∀ i ∈ r.jobs, ∀ j ∈ r.jobs, j.job.isOf i.job.left.name i.job.right.name →
    ∀ x ∈ b.listed i.job.left.name i.job.right.name, x ∈ i.accepted → x ∈ j.accepted

instance (r : Review) (b : Baseline) : Decidable (r.Orphaned b) :=
  inferInstanceAs (Decidable (∃ s ∈ b.sections, ∀ j ∈ r.jobs, ¬j.job.isOf s.left s.right))

instance (r : Review) (b : Baseline) : Decidable (r.Idle b) :=
  inferInstanceAs (Decidable (∃ s ∈ b.sections, ∃ x ∈ s.suppressions,
    ∀ j ∈ r.jobs, j.job.isOf s.left s.right → ∀ d ∈ j.raw, ¬x.covers d))

instance (r : Review) (b : Baseline) : Decidable (r.FindAlike b) :=
  inferInstanceAs (Decidable (∀ i ∈ r.jobs, ∀ j ∈ r.jobs,
    j.job.isOf i.job.left.name i.job.right.name →
      ∀ x ∈ b.listed i.job.left.name i.job.right.name, x ∈ i.accepted → x ∈ j.accepted))

theorem map_job_ofOutputs {jobs : List Job} {outputs : List Output}
    (h : outputs.length = jobs.length) (b : Option Baseline) :
    (ofOutputs jobs outputs b).jobs.map (·.job) = jobs := by
  rw [ofOutputs, List.map_zipWith]
  exact List.ext_getElem (by simp [h]) fun i _ _ => by simp

theorem hasOrphan_iff {jobs : List Job} {b : Baseline} :
    hasOrphan jobs b ↔ ∃ s ∈ b.sections, ∀ j ∈ jobs, ¬j.isOf s.left s.right := by
  simp only [hasOrphan, List.any_eq_true, Bool.not_eq_true', List.any_eq_false]

theorem noticed_iff {r : Review} {b : Baseline} (hb : r.baseline = some b) :
    r.Noticed b ↔ ∃ j ∈ r.jobs, r.unneeded j ≠ [] := by
  simp only [Noticed, ne_eq, unneeded_eq_nil_iff hb, Classical.not_forall,
    ← ReviewedJob.not_mem_accepted, exists_prop, Classical.not_and_iff_not_or_not]

/-- What there is to be noticed. -/
theorem foundUnused_iff {jobs : List Job} {outputs : List Output}
    (houtputs : outputs.length = jobs.length) (b : Baseline) :
    let r := ofOutputs jobs outputs (some b)
    r.foundUnused = true ↔ r.Orphaned b ∨ r.Noticed b := by
  intro r
  have hjobs : r.jobs.map (·.job) = jobs := map_job_ofOutputs houtputs _
  have horphan : r.unusedSeen = true ↔ r.Orphaned b := by
    have hall (s : Section) : (∀ j ∈ jobs, ¬j.isOf s.left s.right) ↔
        ∀ j ∈ r.jobs, ¬j.job.isOf s.left s.right := by
      rw [← hjobs, List.forall_mem_map]
    exact hasOrphan_iff.trans (exists_congr fun s => and_congr_right fun _ => hall s)
  rw [foundUnused, Bool.or_eq_true, horphan, noticed_iff (r := r) rfl, List.any_eq_true]
  simp only [Bool.not_eq_true', List.isEmpty_eq_false_iff]

/-- A section that is not orphaned belongs to some job. -/
theorem exists_isOf_of_not_orphaned {r : Review} {b : Baseline} (h : ¬r.Orphaned b) {s : Section}
    (hs : s ∈ b.sections) : ∃ j ∈ r.jobs, j.job.isOf s.left s.right := by
  simp only [Orphaned, not_exists, not_and, Classical.not_forall, exists_prop,
    Classical.not_not] at h
  exact h s hs

/-- What is noticed is what no job needs, if nothing is listed in vain and jobs of equal names have
found the same. -/
theorem noticed_iff_idle {r : Review} {b : Baseline} (hb : b.Irredundant) (hr : r.FindAlike b) :
    r.Orphaned b ∨ r.Noticed b ↔ r.Orphaned b ∨ r.Idle b := by
  constructor
  · rintro (h | ⟨j, hj, s, hs, hrest⟩)
    · exact .inl h
    have hmem := List.mem_of_find?_eq_some hs
    have hof := List.find?_some hs
    rcases hrest with hnodup | ⟨x, hx, hnot⟩
    · exact absurd (hb.once s hmem) hnodup
    refine .inr ⟨s, hmem, x, hx, fun i hi hi' => ?_⟩
    obtain ⟨hleft, hright⟩ := Section.isOf_iff.1 hof
    rw [hleft, hright, Job.isOf_comm] at hi'
    obtain ⟨hileft, hiright⟩ := Job.isOf_iff.1 hi'
    rw [hileft, hiright] at hof
    rw [← ReviewedJob.not_mem_accepted] at hnot ⊢
    have hlisted : x ∈ b.listed i.job.left.name i.job.right.name :=
      Baseline.mem_listed.2 ⟨s, hmem, hof, hx⟩
    exact fun h => hnot (hr i hi j hj hi' x hlisted h)
  · rintro (h | ⟨s, hs, x, hx, hnone⟩)
    · exact .inl h
    refine Classical.or_iff_not_imp_left.2 fun horphan => ?_
    obtain ⟨j, hj, hof⟩ := exists_isOf_of_not_orphaned horphan hs
    obtain ⟨hleft, hright⟩ := Job.isOf_iff.1 hof
    obtain ⟨t, ht, hxt⟩ :=
      Baseline.mem_firstListed.1 (hb.mem_firstListed.2 (Baseline.mem_listed_self hs hx))
    exact ⟨j, hj, t, hleft ▸ hright ▸ ht, .inr ⟨x, hxt, hnone j hj hof⟩⟩

/-- Whatever was asked before, a review says that something is unneeded exactly if a section belongs
to no job or a job notices it; that is exactly if a section or a suppression is needed by no job,
provided that nothing is listed in vain and jobs of equal names have found the same. -/
theorem hasUnused_exact {jobs : List Job} {outputs : List Output}
    (houtputs : outputs.length = jobs.length) (b : Baseline) (asked : List Nat) :
    let r := ofOutputs jobs outputs (some b)
    let state := ((asked.mapM differences).run r).2
    ((hasUnused.run state).1 = true ↔ r.Orphaned b ∨ r.Noticed b) ∧
      (b.Irredundant → r.FindAlike b →
        ((hasUnused.run state).1 = true ↔ r.Orphaned b ∨ r.Idle b)) := by
  intro r state
  have hfresh : r.IsFresh := isFresh_ofOutputs jobs outputs (some b)
  have hexact : (hasUnused.run state).1 = true ↔ r.Orphaned b ∨ r.Noticed b := by
    have hstate : state = r.after asked.reverse := run_mapM_differences hfresh asked
    rw [hstate, hasUnused_after hfresh]
    exact foundUnused_iff houtputs b
  exact ⟨hexact, fun hb hr => hexact.trans (noticed_iff_idle hb hr)⟩

/-! ## Jobs and sections of one pair of builds -/

def pairJob : Job :=
  ⟨⟨"v1", ⟨"old"⟩, []⟩, ⟨"v2", ⟨"new"⟩, []⟩⟩

def sealedOne : Difference := .sealing "One" true
def sealedTwo : Difference := .sealing "Two" true

/-- A section for each of these lists of differences. -/
def pairBaseline (listed : List (List Difference)) : Baseline :=
  ⟨listed.map fun ds => Baseline.sectionOf ("v1", "v2", ds)⟩

/-- A job for each of these lists of differences, and the baseline that they are held against. -/
def pairReview (found : List (List Difference)) (b : Baseline) : Review :=
  ofOutputs (found.map fun _ => pairJob) (found.map fun ds => ⟨ds, []⟩) (some b)

/-- Two jobs that have found the same, against a suppression that neither of them needs; the first
one was asked for before. -/
theorem hasUnused_exact_pairReview :
    let b := pairBaseline [[sealedOne, sealedTwo]]
    let r := pairReview [[sealedOne], [sealedOne]] b
    let state := (([0].mapM differences).run r).2
    b.Irredundant ∧ r.FindAlike b ∧ r.Idle b ∧ (hasUnused.run state).1 = true := by
  intro b r state
  have hb : b.Irredundant := by decide
  have hr : r.FindAlike b := by decide
  have hidle : r.Idle b := by decide
  exact ⟨hb, hr, hidle, ((hasUnused_exact rfl b [0]).2 hb hr).2 (.inr hidle)⟩

/-- A suppression that is listed twice is reported although it covers something, and so is one that
only some job of its names needs; one in a second section is not reported although it covers
nothing. -/
theorem exists_hasUnused_ne :
    (let b := pairBaseline [[sealedOne, sealedOne]]
      let r := pairReview [[sealedOne]] b
      (hasUnused.run r).1 = true ∧ ¬r.Orphaned b ∧ ¬r.Idle b) ∧
    (let b := pairBaseline [[sealedOne, sealedTwo]]
      let r := pairReview [[sealedOne], [sealedTwo]] b
      (hasUnused.run r).1 = true ∧ ¬r.Orphaned b ∧ ¬r.Idle b) ∧
    (let b := pairBaseline [[sealedOne], [sealedTwo]]
      let r := pairReview [[sealedOne]] b
      (hasUnused.run r).1 = false ∧ r.Idle b) := by
  refine ⟨?_, ?_, ?_⟩ <;> decide

end ApiEvolution.Review
