import ApiEvolution.Proofs.Review.Unneeded

/-!
# What a review leaves is what subtraction leaves

Two ways to hold findings against a baseline: job by job, when the differences of a job are asked
for, and at once, by subtracting the baseline from the one that accepts all findings. Where names
tell jobs apart, and sections, they agree: what is left of a job are the differences that the
section of its names does not list, and what subtraction leaves are the suppressions for these.

The main statement is `acceptingBaseline_subtract`.
-/

namespace ApiEvolution

namespace Baseline

/-- No two sections are of the same pair of builds. -/
def Distinct (b : Baseline) : Prop :=
  b.sections.Pairwise fun s t => ¬t.isOf s.left s.right

instance (b : Baseline) : Decidable b.Distinct :=
  inferInstanceAs (Decidable (b.sections.Pairwise fun s t => ¬t.isOf s.left s.right))

theorem Distinct.section?_eq {b : Baseline} (h : b.Distinct) {s : Section} (hs : s ∈ b.sections) :
    b.section? s.left s.right = some s := by
  obtain ⟨before, behind, hsections⟩ := List.append_of_mem hs
  refine List.find?_eq_some_iff_append.2 ⟨s.isOf_self, before, behind, hsections, fun t ht => ?_⟩
  rw [Distinct, hsections, List.pairwise_append] at h
  have hts := h.2.2 t ht s List.mem_cons_self
  simpa using fun hof => hts (Section.isOf_comm.1 hof)

theorem Distinct.irredundant_iff {b : Baseline} (h : b.Distinct) :
    b.Irredundant ↔ ∀ s ∈ b.sections, s.suppressions.Nodup :=
  ⟨fun hb => hb.once, fun hb => ⟨hb, h.imp fun hst hof => absurd hof hst⟩⟩

end Baseline

namespace Review

/-! ## The baseline that accepts all findings -/

theorem acceptingBaseline_after (r : Review) (asked : List Nat) :
    (r.after asked).acceptingBaseline = r.acceptingBaseline := by
  have hfound : (r.after asked).jobs.map (fun j => (j.job.left.name, j.job.right.name, j.raw)) =
      r.jobs.map fun j => (j.job.left.name, j.job.right.name, j.raw) := by
    refine List.ext_getElem? fun i => ?_
    rw [List.getElem?_map, List.getElem?_map, getElem?_after]
    cases r.jobs[i]? with
    | none => rfl
    | some j => by_cases hi : i ∈ asked <;> simp [hi, settled]
  rw [acceptingBaseline, hfound, acceptingBaseline]

/-- It lists for a pair of builds what the jobs of these names have found. -/
theorem mem_listed_acceptingBaseline {r : Review} {left right : String} {x : Suppression} :
    x ∈ r.acceptingBaseline.listed left right ↔
      ∃ j ∈ r.jobs, j.job.isOf left right ∧ x ∈ j.accepted := by
  simp only [Baseline.mem_listed, acceptingBaseline, Baseline.mem_ofDifferences_iff, List.mem_map]
  constructor
  · rintro ⟨_, ⟨_, ⟨j, hj, rfl⟩, -, rfl⟩, hof, hx⟩
    exact ⟨j, hj, hof, (Section.sorted_perm _).mem_iff.1 hx⟩
  · rintro ⟨j, hj, hof, hx⟩
    have hne : j.raw ≠ [] := mt ReviewedJob.accepted_eq_nil.2 (List.ne_nil_of_mem hx)
    exact ⟨_, ⟨_, ⟨j, hj, rfl⟩, hne, rfl⟩, hof, (Section.sorted_perm _).mem_iff.2 hx⟩

/-! ## What is unneeded -/

/-- No two jobs are of the same pair of builds. -/
def Distinct (r : Review) : Prop :=
  r.jobs.Pairwise fun i j => ¬j.job.isOf i.job.left.name i.job.right.name

theorem Distinct.eq {r : Review} (h : r.Distinct) {i j : ReviewedJob} (hi : i ∈ r.jobs)
    (hj : j ∈ r.jobs) (hij : j.job.isOf i.job.left.name i.job.right.name) : i = j := by
  obtain ⟨k, hk, rfl⟩ := List.getElem_of_mem hi
  obtain ⟨l, hl, rfl⟩ := List.getElem_of_mem hj
  have hne := List.pairwise_iff_getElem.1 h
  rcases Nat.lt_trichotomy k l with hkl | rfl | hlk
  · exact absurd hij (hne k l hk hl hkl)
  · rfl
  · exact absurd (Job.isOf_comm.1 hij) (hne l k hl hk hlk)

/-- A section is the one that some job is filtered by, unless it belongs to no job. -/
theorem orphaned_or_filters {r : Review} {b : Baseline} (hb : b.Distinct) {s : Section}
    (hs : s ∈ b.sections) : r.Orphaned b ∨ ∃ j ∈ r.jobs, j.job.isOf s.left s.right ∧
      b.section? j.job.left.name j.job.right.name = some s := by
  refine Classical.or_iff_not_imp_left.2 fun horphan => ?_
  obtain ⟨j, hj, hof⟩ := exists_isOf_of_not_orphaned horphan hs
  obtain ⟨hleft, hright⟩ := Job.isOf_iff.1 hof
  exact ⟨j, hj, hof, by rw [hleft, hright, hb.section?_eq hs]⟩

/-- Subtraction finds something unneeded exactly if the review does. -/
theorem stale_iff {r : Review} {b : Baseline} (hr : r.Distinct) (hb : b.Distinct)
    (hfull : ∀ s ∈ b.sections, s.suppressions ≠ []) :
    (r.acceptingBaseline.subtract b).2 = true ↔ r.Orphaned b ∨ r.Noticed b := by
  rw [Baseline.subtract_snd_iff, hb.irredundant_iff]
  constructor
  · rintro (hdup | ⟨s, hs, x, hx, hnot⟩)
    · obtain ⟨s, hs, hdup⟩ : ∃ s ∈ b.sections, ¬s.suppressions.Nodup := by simpa using hdup
      exact (orphaned_or_filters hb hs).imp_right fun ⟨j, hj, _, hfirst⟩ =>
        ⟨j, hj, s, hfirst, .inl hdup⟩
    · refine (orphaned_or_filters hb hs).imp_right fun ⟨j, hj, hof, hfirst⟩ =>
        ⟨j, hj, s, hfirst, .inr ⟨x, hx, ReviewedJob.not_mem_accepted.1 fun hxj => ?_⟩⟩
      exact hnot (mem_listed_acceptingBaseline.2 ⟨j, hj, hof, hxj⟩)
  · rintro (⟨s, hs, hnone⟩ | ⟨j, hj, s, hfirst, hdup | ⟨x, hx, hnot⟩⟩)
    · obtain ⟨x, hx⟩ := List.exists_mem_of_ne_nil _ (hfull s hs)
      refine .inr ⟨s, hs, x, hx, fun h => ?_⟩
      obtain ⟨j, hj, hof, -⟩ := mem_listed_acceptingBaseline.1 h
      exact hnone j hj hof
    · exact .inl fun h => hdup (h s (List.mem_of_find?_eq_some hfirst))
    · refine .inr ⟨s, List.mem_of_find?_eq_some hfirst, x, hx, fun h => ?_⟩
      obtain ⟨i, hi, hof, hxi⟩ := mem_listed_acceptingBaseline.1 h
      obtain ⟨hleft, hright⟩ := Section.isOf_iff.1 (List.find?_some hfirst)
      rw [hleft, hright] at hof
      -- only one job has the names of the section
      rw [hr.eq hj hi hof, ← ReviewedJob.not_mem_accepted] at hnot
      exact hnot hxi

/-! ## What is left -/

/-- What the jobs of a review accept, where the jobs are in order. -/
theorem sections_acceptingBaseline {r : Review}
    (h : r.jobs.Pairwise fun i j => (i.job.order j.job).isLE) :
    r.acceptingBaseline.sections = (r.jobs.filter fun j => !j.raw.isEmpty).map fun j =>
      (Baseline.sectionOf (j.job.left.name, j.job.right.name, j.raw)).sorted := by
  rw [acceptingBaseline, Baseline.sections_ofDifferences, List.filter_map, List.map_map]
  · rfl
  · exact h.map _ fun _ _ hij => hij

/-- A job whose differences are not all covered has found some. -/
theorem raw_ne_nil_of_answer_ne_nil {r : Review} {b : Baseline} (hb : r.baseline = some b)
    {j : ReviewedJob} (h : r.answer j ≠ []) : j.raw ≠ [] := by
  rw [answer_eq hb] at h
  rintro hnil
  simp [hnil] at h

/-- Taking what the first section of its names lists from what a job accepts leaves what accepts the
differences that are left. -/
theorem sectionOf_answer {r : Review} {b : Baseline} (hb : r.baseline = some b) (j : ReviewedJob) :
    (Baseline.sectionOf (j.job.left.name, j.job.right.name, r.answer j)).sorted =
      let s := (Baseline.sectionOf (j.job.left.name, j.job.right.name, j.raw)).sorted
      { s with suppressions := s.suppressions.filter (· ∉ b.firstListed s.left s.right) } := by
  rw [answer_eq hb]
  refine Eq.trans ?_ (Section.sorted_filter _ _)
  simp only [Baseline.sectionOf, List.filter_map]
  rfl

/-- The section that accepts differences lists something if there are any. -/
theorem isEmpty_sectionOf (left right : String) (ds : List Difference) :
    (Baseline.sectionOf (left, right, ds)).sorted.suppressions.isEmpty = ds.isEmpty := by
  have hperm := Section.sorted_perm (Baseline.sectionOf (left, right, ds))
  rw [Bool.eq_iff_iff, List.isEmpty_iff_length_eq_zero, hperm.length_eq]
  simp [Baseline.sectionOf]

/-- What subtraction leaves are the sections that accept what is left of the jobs. -/
theorem subtract_fst_eq {r : Review} {b : Baseline} (hb : r.baseline = some b)
    (h : r.jobs.Pairwise fun i j => (i.job.order j.job).isLE) :
    (r.acceptingBaseline.subtract b).1 =
      ⟨(r.jobs.filter fun j => !(r.answer j).isEmpty).map fun j =>
        (Baseline.sectionOf (j.job.left.name, j.job.right.name, r.answer j)).sorted⟩ := by
  simp only [Baseline.subtract_fst, Baseline.without, sections_acceptingBaseline h, List.map_map,
    Function.comp_def, ← sectionOf_answer hb, List.filter_map, List.filter_filter,
    isEmpty_sectionOf]
  congr 2
  refine List.filter_congr fun j _ => ?_
  cases hj : r.answer j with
  | nil => simp
  | cons d ds =>
    have hraw := raw_ne_nil_of_answer_ne_nil hb (List.ne_nil_of_mem (hj ▸ List.mem_cons_self))
    simpa using hraw

/-! ## Jobs in their order -/

theorem transCmp_jobOrder : Std.TransCmp Job.order :=
  transCmp_on Text.transCmp_orderPair fun j : Job => (j.left.name, j.right.name)

/-- The review of sorted jobs has them in order. -/
theorem pairwise_order_ofOutputs {jobs : List Job} {outputs : List Output}
    (h : outputs.length = (Job.sorted jobs).length) (b : Option Baseline) :
    (ofOutputs (Job.sorted jobs) outputs b).jobs.Pairwise
      fun i j => (i.job.order j.job).isLE := by
  have hsorted : (Job.sorted jobs).Pairwise fun i j => (i.order j).isLE :=
    pairwise_mergeSort transCmp_jobOrder jobs
  rw [← map_job_ofOutputs h b] at hsorted
  exact List.pairwise_map.1 hsorted

theorem distinct_ofOutputs {jobs : List Job} {outputs : List Output}
    (h : outputs.length = (Job.sorted jobs).length) (b : Option Baseline)
    (hjobs : jobs.Pairwise fun i j => ¬j.isOf i.left.name i.right.name) :
    (ofOutputs (Job.sorted jobs) outputs b).Distinct := by
  have hsymm {i j : Job} (hij : ¬j.isOf i.left.name i.right.name) :
      ¬i.isOf j.left.name j.right.name :=
    mt Job.isOf_comm.1 hij
  have hperm : (Job.sorted jobs).Perm jobs := List.mergeSort_perm _ _
  have hsorted : (Job.sorted jobs).Pairwise fun i j => ¬j.isOf i.left.name i.right.name :=
    (hperm.pairwise_iff hsymm).2 hjobs
  rw [← map_job_ofOutputs h b] at hsorted
  exact List.pairwise_map.1 hsorted

/-- Where names tell jobs apart, and sections, of which none is empty: subtracting the baseline from
the one that accepts all findings leaves, in the order of the jobs, what accepts the differences
that are left of each job, and finds something unneeded exactly if the review does, whatever was
asked before. -/
theorem acceptingBaseline_subtract {jobs : List Job} {outputs : List Output} {b : Baseline}
    (hjobs : jobs.Pairwise fun i j => ¬j.isOf i.left.name i.right.name)
    (houtputs : outputs.length = jobs.length) (hdistinct : b.Distinct)
    (hfull : ∀ s ∈ b.sections, s.suppressions ≠ []) (asked : List Nat) :
    let r := ofOutputs (Job.sorted jobs) outputs (some b)
    let state := ((asked.mapM differences).run r).2
    ∃ left : List (List Difference), left.length = jobs.length ∧
      (∀ i, ((differences i).run state).1 = left[i]?) ∧
      state.acceptingBaseline.subtract b =
        (⟨((List.zip (Job.sorted jobs) left).filter fun f => !f.2.isEmpty).map fun f =>
            (Baseline.sectionOf (f.1.left.name, f.1.right.name, f.2)).sorted⟩,
          (hasUnused.run state).1) := by
  intro r state
  have hlength : outputs.length = (Job.sorted jobs).length := by
    rw [houtputs, Job.sorted, List.length_mergeSort]
  have hfresh : r.IsFresh := isFresh_ofOutputs _ _ _
  have hstate : state = r.after asked.reverse := run_mapM_differences hfresh asked
  have hmap : r.jobs.map (·.job) = Job.sorted jobs := map_job_ofOutputs hlength _
  refine ⟨r.jobs.map r.answer, ?_, fun i => ?_, Prod.ext ?_ ?_⟩
  · rw [List.length_map, ← List.length_map (f := ReviewedJob.job), hmap, Job.sorted,
      List.length_mergeSort]
  · rw [hstate, differences_after hfresh, List.getElem?_map]
  · have hrest := subtract_fst_eq (r := r) rfl (pairwise_order_ofOutputs hlength _)
    rw [hstate, acceptingBaseline_after, hrest, ← hmap, List.zip_map', List.filter_map,
      List.map_map]
    rfl
  · have hstale := stale_iff (r := r) (distinct_ofOutputs hlength _ hjobs) hdistinct hfull
    rw [hstate, acceptingBaseline_after, hasUnused_after hfresh, Bool.eq_iff_iff]
    exact hstale.trans (foundUnused_iff hlength b).symm

/-- Two jobs, of which the second one comes first: it has found something twice, of which one is
accepted; the other job has found what is listed twice. -/
theorem acceptingBaseline_subtract_twoJobs :
    let later : Job := ⟨⟨"v2", ⟨"new"⟩, []⟩, ⟨"v3", ⟨"newer"⟩, []⟩⟩
    let jobs := [later, pairJob]
    let outputs : List Output := [⟨[sealedOne, sealedTwo, sealedTwo], []⟩, ⟨[sealedOne], []⟩]
    let b : Baseline := ⟨[Baseline.sectionOf ("v2", "v3", [sealedOne, sealedOne]),
      Baseline.sectionOf ("v1", "v2", [sealedOne])]⟩
    let r := ofOutputs (Job.sorted jobs) outputs (some b)
    let state := (([1].mapM differences).run r).2
    (jobs.Pairwise fun i j => ¬j.isOf i.left.name i.right.name) ∧ outputs.length = jobs.length ∧
      b.Distinct ∧ (∀ s ∈ b.sections, s.suppressions ≠ []) ∧
      ∃ left : List (List Difference), left.length = jobs.length ∧
        (∀ i, ((differences i).run state).1 = left[i]?) ∧
        state.acceptingBaseline.subtract b =
          (⟨((List.zip (Job.sorted jobs) left).filter fun f => !f.2.isEmpty).map fun f =>
              (Baseline.sectionOf (f.1.left.name, f.1.right.name, f.2)).sorted⟩,
            (hasUnused.run state).1) := by
  intro later jobs outputs b r state
  have hjobs : jobs.Pairwise fun i j => ¬j.isOf i.left.name i.right.name := by decide
  have hdistinct : b.Distinct := by decide
  have hfull : ∀ s ∈ b.sections, s.suppressions ≠ [] := by decide
  exact ⟨hjobs, rfl, hdistinct, hfull, acceptingBaseline_subtract hjobs rfl hdistinct hfull [1]⟩

end Review

end ApiEvolution
