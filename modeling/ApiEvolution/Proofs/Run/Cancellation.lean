import Mathlib.Data.List.Count
import ApiEvolution.Proofs.Review.Remainder
import ApiEvolution.Proofs.Run.Completion

/-!
# Failure and cancellation

A job is left out for one of two reasons: the run was cancelled, or some job has failed. The result
tells them apart only when the run is over, from what has become of the jobs. What is needed for
that is kept by every event (`Execution.Accounted`), so it holds after every schedule: the counter
counts the jobs that have succeeded, and where a job was left out there is a reason for it. The main
statement is `RunRequest.executeBy_settled`.
-/

namespace ApiEvolution

/-- The job has ended, and it has found something out. -/
def Slot.succeeded : Slot → Bool
  | .finished (.ok _) => true
  | _ => false

/-- Why the job has failed, if it has ended so. -/
def Slot.failure? : Slot → Option LoadError
  | .finished (.error cause) => some cause
  | _ => none

theorem Slot.failure?_eq_some_iff {s : Slot} {cause : LoadError} :
    s.failure? = some cause ↔ s = .finished (.error cause) := by
  cases s with
  | finished outcome => cases outcome <;> simp [failure?]
  | _ => simp [failure?]

namespace Execution

variable {outcomes : Nat → Except LoadError Output} {e : Execution} {n : Nat}

/-- Job `i` has run and ended so. -/
def Ended (e : Execution) (i : Nat) (outcome : Except LoadError Output) : Prop :=
  e.slots[i]? = some (.finished outcome)

/-- Job `i` was left out. -/
def LeftOut (e : Execution) (i : Nat) : Prop :=
  e.slots[i]? = some .skipped

/-! ## The invariant -/

/-- The counter counts the jobs that have succeeded, the run is marked as failed only if some job
has failed, and if a job was left out the run was cancelled or is marked as failed. -/
structure Accounted (e : Execution) : Prop where
  completed : e.completed = e.slots.countP Slot.succeeded
  failed : e.failed → ∃ i cause, e.Ended i (.error cause)
  leftOut : ∀ i, e.LeftOut i → e.cancelled ∨ e.failed

theorem accounted_start (n : Nat) (cancelled : Bool) : (start n cancelled).Accounted := by
  refine ⟨?_, nofun, fun i hi => ?_⟩
  · have hcount : (List.replicate n Slot.waiting).countP Slot.succeeded = 0 := by
      rw [List.countP_replicate]
      rfl
    exact hcount.symm
  · rw [LeftOut, start, List.getElem?_replicate] at hi
    split at hi <;> cases hi

section Set

variable {slots : List Slot} {i : Nat} {s t : Slot}

theorem getElem?_set_slot (hs : slots[i]? = some s) (j : Nat) :
    (slots.set i t)[j]? = if i = j then some t else slots[j]? := by
  rw [List.getElem?_set]
  split
  · exact if_pos (List.getElem?_eq_some_iff.1 hs).1
  · rfl

theorem countP_set_slot (hs : slots[i]? = some s) (hcount : s.succeeded = false) :
    (slots.set i t).countP Slot.succeeded =
      slots.countP Slot.succeeded + if t.succeeded then 1 else 0 := by
  obtain ⟨hi, rfl⟩ := List.getElem?_eq_some_iff.1 hs
  rw [List.countP_set hi, hcount]
  rfl

/-- A failure stays where it is when a job starts or ends that had not ended before. -/
theorem failure_set_slot (hs : slots[i]? = some s) (hend : ∀ o, s ≠ .finished o)
    (h : ∃ (j : Nat) (cause : LoadError), slots[j]? = some (.finished (.error cause))) :
    ∃ (j : Nat) (cause : LoadError), (slots.set i t)[j]? = some (.finished (.error cause)) := by
  obtain ⟨j, cause, hj⟩ := h
  refine ⟨j, cause, ?_⟩
  rw [getElem?_set_slot hs, if_neg, hj]
  rintro rfl
  rw [hs] at hj
  exact hend _ (Option.some.inj hj)

end Set

/-- A job starts, unless one of the flags says that it is to be left out. -/
theorem Accounted.start (h : e.Accounted) {i : Nat} (hi : e.slots[i]? = some .waiting) :
    Accounted
      { e with
        slots := e.slots.set i (if e.cancelled || e.failed then .skipped else .running) } where
  completed := by
    rw [countP_set_slot hi rfl, h.completed]
    split <;> rfl
  failed hfailed := failure_set_slot hi nofun (h.failed hfailed)
  leftOut j hj := by
    rw [LeftOut, getElem?_set_slot hi] at hj
    split at hj
    · split at hj
      · next hflag => exact (Bool.or_eq_true _ _).mp hflag
      · cases hj
    · exact h.leftOut j hj

/-- A job that runs ends. -/
theorem Accounted.finish (h : e.Accounted) {i : Nat} (hi : e.slots[i]? = some .running)
    (outcome : Except LoadError Output) : (e.finish i outcome).Accounted := by
  have hleftOut (j : Nat) (hj : (e.slots.set i (.finished outcome))[j]? = some .skipped) :
      e.cancelled ∨ e.failed := by
    rw [getElem?_set_slot hi] at hj
    split at hj
    · cases hj
    · exact h.leftOut j hj
  cases outcome with
  | ok o =>
    have hcount := countP_set_slot (t := .finished (.ok o)) hi rfl
    refine ⟨?_, fun hfailed => failure_set_slot hi nofun (h.failed hfailed), hleftOut⟩
    exact (congrArg (· + 1) h.completed).trans hcount.symm
  | error cause =>
    have hcount := countP_set_slot (t := .finished (.error cause)) hi rfl
    refine ⟨h.completed.trans hcount.symm, fun _ => ⟨i, cause, ?_⟩, fun _ _ => .inr rfl⟩
    exact (getElem?_set_slot hi i).trans (if_pos rfl)

theorem Accounted.step (h : e.Accounted) (ev : Event) : (e.step outcomes ev).Accounted := by
  cases ev with
  | cancel => exact ⟨h.completed, h.failed, fun _ _ => .inl rfl⟩
  | start i =>
    simp only [Execution.step]
    split
    · next hi => exact h.start hi
    · exact h
  | finish i =>
    simp only [Execution.step]
    split
    · next hi => exact h.finish hi (outcomes i)
    · exact h

theorem Accounted.run (h : e.Accounted) (s : Schedule) : (e.run outcomes s).Accounted := by
  induction s generalizing e with
  | nil => exact h
  | cons ev s ih => exact ih (h.step ev)

/-- Nothing but a request cancels a run. -/
theorem cancelled_run {s : Schedule} (h : (e.run outcomes s).cancelled) :
    e.cancelled ∨ .cancel ∈ s := by
  induction s generalizing e with
  | nil => exact .inl h
  | cons ev s ih =>
    rcases ih (e := e.step outcomes ev) h with h | h
    · cases ev with
      | cancel => exact .inr List.mem_cons_self
      | start i =>
        refine .inl ?_
        simp only [Execution.step] at h
        split at h <;> exact h
      | finish i =>
        refine .inl ?_
        simp only [Execution.step, Execution.finish] at h
        split at h
        · split at h <;> exact h
        · exact h
    · exact .inr (List.mem_cons_of_mem _ h)

/-! ## The result of a run -/

theorem firstError?_eq (e : Execution) : e.firstError? = e.slots.findSome? Slot.failure? :=
  rfl

/-- What is told of the failures is the one of the first job that failed. -/
theorem firstError?_eq_some_iff {cause : LoadError} : e.firstError? = some cause ↔
    ∃ k, e.Ended k (.error cause) ∧ ∀ j < k, ∀ c, ¬ e.Ended j (.error c) := by
  rw [firstError?_eq, List.findSome?_eq_some_iff]
  constructor
  · rintro ⟨before, slot, after, hslots, hslot, hbefore⟩
    rw [Slot.failure?_eq_some_iff] at hslot
    refine ⟨before.length, ?_, fun j hj c hc => ?_⟩
    · rw [Ended, hslots, List.getElem?_append_right (Nat.le_refl _), Nat.sub_self, hslot]
      rfl
    · rw [Ended, hslots, List.getElem?_append_left hj] at hc
      cases hbefore _ (List.mem_of_getElem? hc)
  · rintro ⟨k, hk, hfirst⟩
    obtain ⟨hlt, hslot⟩ := List.getElem?_eq_some_iff.1 hk
    refine ⟨e.slots.take k, e.slots[k], e.slots.drop (k + 1), ?_, ?_, fun slot hmem => ?_⟩
    · rw [← List.drop_eq_getElem_cons hlt, List.take_append_drop]
    · rw [hslot]
      rfl
    · obtain ⟨j, hj⟩ := List.mem_iff_getElem?.1 hmem
      rw [List.getElem?_take] at hj
      split at hj
      · next hjk =>
        refine Option.eq_none_iff_forall_ne_some.2 fun c hc => hfirst j hjk c ?_
        rw [Ended, hj, Slot.failure?_eq_some_iff.1 hc]
      · cases hj

theorem firstError?_eq_none_iff : e.firstError? = none ↔ ∀ i cause, ¬ e.Ended i (.error cause) := by
  rw [firstError?_eq, List.findSome?_eq_none_iff]
  constructor
  · intro h i cause hi
    cases h _ (List.mem_of_getElem? hi)
  · intro h slot hmem
    obtain ⟨i, hi⟩ := List.mem_iff_getElem?.1 hmem
    refine Option.eq_none_iff_forall_ne_some.2 fun c hc => h i c ?_
    rw [Ended, hi, Slot.failure?_eq_some_iff.1 hc]

/-- There is a result exactly if all jobs have succeeded. -/
theorem exists_collect_eq_ok_iff :
    (∃ outputs, e.collect = .ok outputs) ↔ ∀ i < e.slots.length, ∃ o, e.Ended i (.ok o) := by
  constructor
  · rintro ⟨outputs, h⟩ i hi
    rw [slots_of_collect h, List.length_map] at hi
    refine ⟨outputs[i], ?_⟩
    rw [Ended, slots_of_collect h, List.getElem?_map, List.getElem?_eq_getElem hi]
    rfl
  · intro h
    have hslot (slot : Slot) (hmem : slot ∈ e.slots) : ∃ o, slot = .finished (.ok o) := by
      obtain ⟨i, hi, rfl⟩ := List.getElem_of_mem hmem
      obtain ⟨o, ho⟩ := h i hi
      rw [Ended, List.getElem?_eq_getElem hi] at ho
      exact ⟨o, Option.some.inj ho⟩
    have hfirst : e.firstError? = none := firstError?_eq_none_iff.2 fun i cause hi => by
      obtain ⟨o, ho⟩ := hslot _ (List.mem_of_getElem? hi)
      cases ho
    have hskipped : e.hasSkipped = false := List.any_eq_false.2 fun slot hmem => by
      obtain ⟨o, rfl⟩ := hslot slot hmem
      exact Bool.false_ne_true
    exact ⟨e.outputs, by simp only [collect, hfirst, hskipped, Bool.false_eq_true, if_false]⟩

theorem collect_eq_load_iff {cause : LoadError} :
    e.collect = .error (.load cause) ↔ e.firstError? = some cause := by
  unfold collect
  cases e.firstError? with
  | some c => simp
  | none => cases e.hasSkipped <;> simp

theorem collect_eq_cancelled_iff {completed total : Nat} :
    e.collect = .error (.cancelled completed total) ↔
      e.firstError? = none ∧ e.hasSkipped ∧ completed = e.completed ∧ total = e.slots.length := by
  unfold collect
  cases e.firstError? with
  | some c => simp
  | none => cases e.hasSkipped <;> simp [eq_comm]

/-- When the run is over, a job that has not run was left out. -/
theorem exists_leftOut (hover : e.isOver) (h : e.hasSkipped) : ∃ i, e.LeftOut i := by
  obtain ⟨slot, hmem, hslot⟩ := List.any_eq_true.1 h
  have hend := List.all_eq_true.1 hover slot hmem
  obtain ⟨i, hi⟩ := List.mem_iff_getElem?.1 hmem
  cases slot with
  | waiting => cases hend
  | running => cases hend
  | skipped => exact ⟨i, hi⟩
  | finished o => cases hslot

end Execution

/-! ## Jobs in order -/

namespace Job

variable (jobs : List Job)

theorem sorted_perm : (sorted jobs).Perm jobs :=
  List.mergeSort_perm jobs _

theorem pairwise_sorted : (sorted jobs).Pairwise fun i j => (i.order j).isLE :=
  pairwise_mergeSort Review.transCmp_jobOrder jobs

/-- Jobs of equal names stay in their order. -/
theorem filter_sorted (left right : String) :
    (sorted jobs).filter (isOf left right) = jobs.filter (isOf left right) := by
  refine filter_mergeSort Review.transCmp_jobOrder (fun i j hi hj => ?_) jobs
  obtain ⟨rfl, rfl⟩ := isOf_iff.1 hi
  obtain ⟨hleft, hright⟩ := isOf_iff.1 hj
  rw [order, hleft, hright, Text.orderPair_eq_eq_iff.2 rfl]
  rfl

end Job

namespace RunRequest

variable {q : RunRequest} {outcomes : Nat → Except LoadError Output} {s : Schedule}

theorem outcomeOf_runs {i : Nat} {j : Job} (hj : (Job.sorted q.jobs)[i]? = some j) :
    outcomeOf q.runs i = j.outcome q.read q.selection := by
  rw [outcomeOf, runs, List.getElem?_map, hj]
  rfl

theorem executeBy_eq_error_iff {cause : RunError} : q.executeBy s outcomes = .error cause ↔
    ((Execution.start (Job.sorted q.jobs).length q.cancelled).run outcomes s).collect =
      .error cause := by
  simp only [executeBy]
  split
  · next hcollect => simp [hcollect]
  · next hcollect => simp [hcollect]

theorem exists_executeBy_eq_ok_iff : (∃ r, q.executeBy s outcomes = .ok r) ↔ ∃ outputs,
    ((Execution.start (Job.sorted q.jobs).length q.cancelled).run outcomes s).collect =
      .ok outputs := by
  constructor
  · rintro ⟨r, h⟩
    obtain ⟨outputs, houtputs, -⟩ := executeBy_eq_ok h
    exact ⟨outputs, houtputs⟩
  · rintro ⟨outputs, houtputs⟩
    exact ⟨.ofOutputs (Job.sorted q.jobs) outputs q.baseline, by simp only [executeBy, houtputs]⟩

/-- What a run has put out for job `i` is what job `i` has found. -/
theorem jobs_of_executeBy {r : Review} (h : q.executeBy s outcomes = .ok r) :
    r.jobs.length = (Job.sorted q.jobs).length ∧
      ∀ i j, (Job.sorted q.jobs)[i]? = some j → ∃ o,
        ((Execution.start (Job.sorted q.jobs).length q.cancelled).run outcomes s).Ended i (.ok o) ∧
          r.jobs[i]? = some ⟨j, o.differences, o.diagnostics, none⟩ := by
  obtain ⟨outputs, houtputs, rfl⟩ := executeBy_eq_ok h
  have hlength := (Execution.collect_run_ok houtputs).1
  refine ⟨?_, fun i j hj => ?_⟩
  · rw [Review.ofOutputs, List.length_zipWith, hlength, Nat.min_self]
  · obtain ⟨hi, -⟩ := List.getElem?_eq_some_iff.1 hj
    rw [← hlength] at hi
    have ho := List.getElem?_eq_getElem hi
    refine ⟨outputs[i], ?_, ?_⟩
    · rw [Execution.Ended, Execution.slots_of_collect houtputs, List.getElem?_map, ho]
      rfl
    · rw [Review.ofOutputs, List.getElem?_zipWith, hj, ho]

/-- A run of jobs that follow a schedule to its end. The jobs are in the order of their names, each
ends as it is bound to if it runs, and so there are three results. There are outputs exactly if
every job has run and succeeded, and then they are those of the jobs in this order; if a job that
ran has failed, the result is the failure of the first such job; and the run is reported as
cancelled only if this was requested, no job has failed and some job was left out. The number that
goes with it is that of the jobs that have succeeded, which are not all. -/
theorem executeBy_settled (q : RunRequest) (outcomes : Nat → Except LoadError Output)
    (s : Schedule) :
    let jobs := Job.sorted q.jobs
    let e := (Execution.start jobs.length q.cancelled).run outcomes s
    let result := q.executeBy s outcomes
    (jobs.Perm q.jobs ∧ jobs.Pairwise (fun i j => (i.order j).isLE) ∧ ∀ left right,
        jobs.filter (Job.isOf left right) = q.jobs.filter (Job.isOf left right)) ∧
      (∀ i j, jobs[i]? = some j → outcomeOf q.runs i = j.outcome q.read q.selection) ∧
      (∀ i o, e.Ended i o → o = outcomes i) ∧
      (e.isOver →
        ((∃ r, result = .ok r) ↔ ∀ i < jobs.length, ∃ o, e.Ended i (.ok o)) ∧
        (∀ r, result = .ok r → r.jobs.length = jobs.length ∧ ∀ i j, jobs[i]? = some j →
          ∃ o, e.Ended i (.ok o) ∧ r.jobs[i]? = some ⟨j, o.differences, o.diagnostics, none⟩) ∧
        (∀ cause, result = .error (.load cause) ↔
          ∃ k, e.Ended k (.error cause) ∧ ∀ j < k, ∀ c, ¬ e.Ended j (.error c)) ∧
        (∀ i cause, e.Ended i (.error cause) → ∃ first, result = .error (.load first)) ∧
        ∀ completed total, result = .error (.cancelled completed total) →
          (q.cancelled ∨ .cancel ∈ s) ∧ (∀ i cause, ¬ e.Ended i (.error cause)) ∧
            (∃ i, e.LeftOut i) ∧ completed = e.slots.countP Slot.succeeded ∧ completed < total ∧
            total = jobs.length) := by
  intro jobs e result
  obtain ⟨hlength, hends⟩ :=
    Execution.faithful_run (Execution.faithful_start outcomes jobs.length q.cancelled) s
  have haccounted : e.Accounted := (Execution.accounted_start jobs.length q.cancelled).run s
  refine ⟨⟨Job.sorted_perm q.jobs, Job.pairwise_sorted q.jobs, Job.filter_sorted q.jobs⟩,
    fun i j => outcomeOf_runs, hends, fun hover => ⟨?_, fun r => jobs_of_executeBy, ?_, ?_, ?_⟩⟩
  · rw [exists_executeBy_eq_ok_iff, Execution.exists_collect_eq_ok_iff, hlength]
  · intro cause
    rw [executeBy_eq_error_iff, Execution.collect_eq_load_iff, Execution.firstError?_eq_some_iff]
  · intro i cause hi
    cases hfirst : e.firstError? with
    | none => exact absurd hi (Execution.firstError?_eq_none_iff.1 hfirst i cause)
    | some first =>
      exact ⟨first, executeBy_eq_error_iff.2 (Execution.collect_eq_load_iff.2 hfirst)⟩
  · intro completed total hcancelled
    obtain ⟨hfirst, hskipped, rfl, rfl⟩ :=
      Execution.collect_eq_cancelled_iff.1 (executeBy_eq_error_iff.1 hcancelled)
    have hnone := Execution.firstError?_eq_none_iff.1 hfirst
    obtain ⟨i, hi⟩ := Execution.exists_leftOut hover hskipped
    refine ⟨?_, hnone, ⟨i, hi⟩, haccounted.completed, ?_, hlength⟩
    · -- no job has failed, so it is for a request that the job was left out
      rcases haccounted.leftOut i hi with hflag | hflag
      · exact Execution.cancelled_run hflag
      · obtain ⟨k, cause, hk⟩ := haccounted.failed hflag
        exact absurd hk (hnone k cause)
    · rw [haccounted.completed]
      exact List.countP_lt_length_iff.2 ⟨.skipped, List.mem_of_getElem? hi, rfl⟩

/-- Three jobs, not in the order of their names. -/
def threeJobs : RunRequest where
  read p := .error ⟨p, "gone"⟩
  jobs := ["b", "c", "a"].map fun name => ⟨⟨name, ⟨name⟩, []⟩, ⟨"v2", ⟨"new"⟩, []⟩⟩

/-- Two jobs overlap, and the request to cancel comes when one of them has ended and before the
third one starts. -/
def overlapping : Schedule :=
  [.start 2, .start 0, .finish 2, .cancel, .start 1, .finish 0]

theorem executeBy_settled_overlapping :
    let outcomes : Nat → Except LoadError Output := fun _ => .ok ⟨[], []⟩
    let e := (Execution.start (Job.sorted threeJobs.jobs).length false).run outcomes overlapping
    e.isOver ∧ threeJobs.executeBy overlapping outcomes = .error (.cancelled 2 3) ∧
      .cancel ∈ overlapping ∧ (∃ i, e.LeftOut i) ∧ 2 = e.slots.countP Slot.succeeded ∧ 2 < 3 := by
  intro outcomes e
  have hlength : (Job.sorted threeJobs.jobs).length = 3 := (Job.sorted_perm _).length_eq
  have hover : e.isOver := by
    unfold e
    rw [hlength]
    rfl
  have hresult : threeJobs.executeBy overlapping outcomes = .error (.cancelled 2 3) := by
    rw [executeBy_eq_error_iff, hlength]
    rfl
  obtain ⟨-, -, -, hsettled⟩ := executeBy_settled threeJobs outcomes overlapping
  obtain ⟨-, -, -, -, hcancelled⟩ := hsettled hover
  obtain ⟨hrequested, -, hleftOut, hcompleted, hlt, -⟩ := hcancelled 2 3 hresult
  exact ⟨hover, hresult, hrequested.resolve_left Bool.false_ne_true, hleftOut, hcompleted, hlt⟩

end RunRequest

end ApiEvolution
