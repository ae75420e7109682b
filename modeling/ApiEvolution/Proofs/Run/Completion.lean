import ApiEvolution.Run.Review

/-!
# Runs that complete

Whatever the schedule, a job that has ended has ended as it was bound to (`Execution.Faithful`).
So a run that has a result has the outputs of all jobs in their order (`collect_run_ok`), and two
such runs of the same jobs have the same result, however they were scheduled (`collect_run_eq`).
The review of such a run holds what each job finds when it runs alone
(`RunRequest.outcomes_of_executeBy`).
-/

namespace ApiEvolution

namespace Execution

/-- There are `n` jobs, and those that have ended have ended as `outcomes` says. -/
def Faithful (outcomes : Nat → Except LoadError Output) (n : Nat) (e : Execution) : Prop :=
  e.slots.length = n ∧ ∀ (i : Nat) o, e.slots[i]? = some (.finished o) → o = outcomes i

theorem faithful_start (outcomes : Nat → Except LoadError Output) (n : Nat) (cancelled : Bool) :
    Faithful outcomes n (start n cancelled) := by
  refine ⟨by simp [start], fun i o h => ?_⟩
  simp only [start, List.getElem?_replicate] at h
  split at h <;> cases h

/-- Putting anything but a wrong end into a slot keeps the others as they are. -/
theorem faithful_set {outcomes : Nat → Except LoadError Output} {n : Nat} {e : Execution}
    (h : Faithful outcomes n e) (i : Nat) {s : Slot} (hs : ∀ o, s = .finished o → o = outcomes i)
    {e' : Execution} (he : e'.slots = e.slots.set i s) : Faithful outcomes n e' := by
  refine ⟨by rw [he, List.length_set]; exact h.1, fun j o hj => ?_⟩
  rw [he, List.getElem?_set] at hj
  split at hj
  · next hij =>
    split at hj
    · cases hj
      rw [← hij]
      exact hs o rfl
    · cases hj
  · exact h.2 j o hj

theorem faithful_step {outcomes : Nat → Except LoadError Output} {n : Nat} {e : Execution}
    (h : Faithful outcomes n e) (ev : Event) : Faithful outcomes n (e.step outcomes ev) := by
  cases ev with
  | cancel => exact h
  | start i =>
    simp only [step]
    split
    · refine faithful_set h i (fun o ho => ?_) rfl
      split at ho <;> cases ho
    · exact h
  | finish i =>
    simp only [step]
    split
    · have hslots : (e.finish i (outcomes i)).slots = e.slots.set i (.finished (outcomes i)) := by
        unfold finish
        split <;> rfl
      exact faithful_set h i (fun o ho => by cases ho; rfl) hslots
    · exact h

theorem faithful_run {outcomes : Nat → Except LoadError Output} {n : Nat} {e : Execution}
    (h : Faithful outcomes n e) (s : Schedule) : Faithful outcomes n (e.run outcomes s) := by
  induction s generalizing e with
  | nil => exact h
  | cons ev s ih => exact ih (faithful_step h ev)

/-! ## Results -/

/-- A result takes an output from every job. -/
theorem slots_of_collect {e : Execution} {outputs : List Output} (h : e.collect = .ok outputs) :
    e.slots = outputs.map fun o => .finished (.ok o) := by
  unfold collect at h
  split at h
  · cases h
  · next hf =>
    split at h
    · cases h
    · next hs =>
      cases h
      simp only [firstError?, List.findSome?_eq_none_iff] at hf
      simp only [hasSkipped, List.any_eq_true, not_exists, not_and] at hs
      rw [Execution.outputs]
      generalize e.slots = slots at hf hs
      induction slots with
      | nil => rfl
      | cons s slots ih =>
        have ih' := ih (fun x hx => hf x (List.mem_cons_of_mem _ hx))
          (fun x hx => hs x (List.mem_cons_of_mem _ hx))
        have hf' := hf s List.mem_cons_self
        have hs' := hs s List.mem_cons_self
        cases s with
        | waiting => exact absurd rfl hs'
        | running => exact absurd rfl hs'
        | skipped => exact absurd rfl hs'
        | finished o =>
          cases o with
          | error cause => cases hf'
          | ok o => simpa using ih'

/-- A run with a result: the jobs have succeeded, and the result is what they put out. -/
theorem collect_run_ok {outcomes : Nat → Except LoadError Output} {n : Nat} {cancelled : Bool}
    {s : Schedule} {outputs : List Output}
    (h : ((start n cancelled).run outcomes s).collect = .ok outputs) :
    outputs.length = n ∧ ∀ (i : Nat) o, outputs[i]? = some o → outcomes i = .ok o := by
  obtain ⟨hlen, hend⟩ := faithful_run (faithful_start outcomes n cancelled) s
  rw [slots_of_collect h] at hlen hend
  refine ⟨by simpa using hlen, fun i o hi => (hend i _ ?_).symm⟩
  rw [List.getElem?_map, hi]
  rfl

/-- The result does not depend on the schedule. -/
theorem collect_run_eq {outcomes : Nat → Except LoadError Output} {n : Nat} {c c' : Bool}
    {s s' : Schedule} {outputs outputs' : List Output}
    (h : ((start n c).run outcomes s).collect = .ok outputs)
    (h' : ((start n c').run outcomes s').collect = .ok outputs') : outputs = outputs' := by
  obtain ⟨hlen, hout⟩ := collect_run_ok h
  obtain ⟨hlen', hout'⟩ := collect_run_ok h'
  refine List.ext_getElem (by rw [hlen, hlen']) fun i hi hi' => ?_
  have e := hout i _ (List.getElem?_eq_getElem hi)
  have e' := hout' i _ (List.getElem?_eq_getElem hi')
  rw [e] at e'
  exact Except.ok.inj e'

end Execution

namespace RunRequest

variable {q : RunRequest} {s s' : Schedule} {r r' : Review}

theorem executeBy_eq_ok {outcomes : Nat → Except LoadError Output}
    (h : q.executeBy s outcomes = .ok r) :
    ∃ outputs, ((Execution.start (Job.sorted q.jobs).length q.cancelled).run
      outcomes s).collect = .ok outputs ∧
        r = .ofOutputs (Job.sorted q.jobs) outputs q.baseline := by
  simp only [executeBy] at h
  split at h
  · next outputs ho => exact ⟨outputs, ho, (Except.ok.inj h).symm⟩
  · cases h

/-- The schedule has no part in the review. -/
theorem executeBy_unique (h : q.executeBy s (outcomeOf q.runs) = .ok r)
    (h' : q.executeBy s' (outcomeOf q.runs) = .ok r') : r' = r := by
  obtain ⟨outputs, ho, rfl⟩ := executeBy_eq_ok h
  obtain ⟨outputs', ho', rfl⟩ := executeBy_eq_ok h'
  rw [Execution.collect_run_eq ho' ho]

/-- All jobs have succeeded, and the review holds what they have found. -/
theorem outcomes_of_executeBy (h : q.executeBy s (outcomeOf q.runs) = .ok r) :
    ∃ outputs, (Job.sorted q.jobs).map (Job.outcome q.read q.selection) = outputs.map .ok ∧
      r = .ofOutputs (Job.sorted q.jobs) outputs q.baseline := by
  obtain ⟨outputs, ho, hr⟩ := executeBy_eq_ok h
  obtain ⟨hlength, houtcomes⟩ := Execution.collect_run_ok ho
  refine ⟨outputs, List.ext_getElem (by simp [hlength]) fun i hi hi' => ?_, hr⟩
  simp only [List.length_map] at hi hi'
  have houtcome := houtcomes i _ (List.getElem?_eq_getElem hi')
  have hrun : q.runs[i]? = some ((Job.sorted q.jobs)[i].run q.read q.selection) := by
    rw [runs, List.getElem?_map, List.getElem?_eq_getElem hi, Option.map_some]
  rw [outcomeOf, hrun] at houtcome
  rw [List.getElem_map, List.getElem_map, ← houtcome]
  rfl

end RunRequest

end ApiEvolution
