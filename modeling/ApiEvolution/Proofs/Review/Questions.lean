import ApiEvolution.Proofs.Review.Unneeded

/-!
# The order of questions

A review computes what it is asked for only then, keeps it, and reports what was not needed at that
moment. No order and no repetition of the questions can be told from the answers: a question settles
some jobs and has the answer that it has at the beginning (`Question.ask_after`), and so has each of
a row of questions (`mapM_ask_after`).

The main statement is `ask_in_any_order`: it says also what the answers about single jobs are, and
what is reported about each job, once.
-/

namespace ApiEvolution.Review

/-- What a review can be asked for. -/
inductive Question where
  | differences (i : Nat)
  | hasUnused
  | uncoveredCount
deriving DecidableEq, Repr

/-- What it answers; there are no differences of a job that there is not. -/
inductive Answer where
  | differences (left : Option (List Difference))
  | hasUnused (found : Bool)
  | uncoveredCount (count : Nat)
deriving DecidableEq, Repr

namespace Question

def ask : Question → ReviewM Answer
  | differences i => Answer.differences <$> Review.differences i
  | hasUnused => Answer.hasUnused <$> Review.hasUnused
  | uncoveredCount => Answer.uncoveredCount <$> Review.uncoveredCount

/-- The answer, whenever the question is asked. -/
def answer (r : Review) : Question → Answer
  | differences i => .differences (r.jobs[i]?.map r.answer)
  | hasUnused => .hasUnused r.foundUnused
  | uncoveredCount => .uncoveredCount (r.jobs.flatMap r.answer).length

/-- The jobs that the question cannot be answered without. Whether anything is not needed may be
known before any of them was asked for. -/
def jobs (r : Review) : Question → List Nat
  | differences i => [i]
  | hasUnused => []
  | uncoveredCount => List.range r.jobs.length

end Question

/-- The first question is asked before the others. -/
theorem run_mapM_ask_cons (q : Question) (qs : List Question) (r : Review) :
    ((q :: qs).mapM Question.ask).run r =
      let first := q.ask.run r
      let rest := (qs.mapM Question.ask).run first.2
      (first.1 :: rest.1, rest.2) := by
  rw [List.mapM_cons]
  rfl

section
variable {r : Review} (hr : r.IsFresh)
include hr

/-- A question has its answer whatever jobs were asked for, and these stay so. -/
theorem Question.ask_after (q : Question) (asked : List Nat) : ∃ more,
    q.ask.run (r.after asked) = (q.answer r, r.after (more ++ asked)) ∧ ∀ i ∈ q.jobs r, i ∈ more := by
  -- where all jobs are asked for, those that were before are among them
  have hall : r.after (List.range r.jobs.length) = r.after (List.range r.jobs.length ++ asked) :=
    after_congr fun i hi => by simp [hi]
  cases q with
  | differences i =>
    refine ⟨[i], ?_, fun _ h => h⟩
    rw [ask, StateT.run_map, differences_after hr]
    rfl
  | hasUnused =>
    have hrun : (Question.hasUnused.ask).run (r.after asked) =
        (answer r .hasUnused, (Review.hasUnused.run (r.after asked)).2) := by
      rw [ask, StateT.run_map, run_hasUnused_after hr]
      rfl
    rw [hrun, run_hasUnused_after hr]
    by_cases h : (r.after asked).unusedSeen
    · exact ⟨[], by rw [if_pos h, List.nil_append], nofun⟩
    · exact ⟨List.range r.jobs.length, by rw [if_neg h, hall], nofun⟩
  | uncoveredCount =>
    refine ⟨List.range r.jobs.length, ?_, fun _ h => h⟩
    rw [ask, StateT.run_map, uncoveredCount_after hr, hall]
    rfl

/-- So it is with a row of questions. -/
theorem mapM_ask_after (qs : List Question) (asked : List Nat) : ∃ more,
    (qs.mapM Question.ask).run (r.after asked) =
      (qs.map fun q => q.answer r, r.after (more ++ asked)) ∧
    ∀ q ∈ qs, ∀ i ∈ q.jobs r, i ∈ more := by
  induction qs generalizing asked with
  | nil => exact ⟨[], rfl, nofun⟩
  | cons q qs ih =>
    obtain ⟨first, hfirst, hjobs⟩ := q.ask_after hr asked
    obtain ⟨rest, hrest, hall⟩ := ih (first ++ asked)
    refine ⟨rest ++ first, ?_, List.forall_mem_cons.2 ⟨fun i hi => ?_, fun q hq i hi => ?_⟩⟩
    · simp only [run_mapM_ask_cons, hfirst, hrest, List.append_assoc, List.map_cons]
    · exact List.mem_append_right _ (hjobs i hi)
    · exact List.mem_append_left _ (hall q hq i hi)

/-- It is the answer that a fresh review gives. -/
theorem Question.ask_fresh (q : Question) : (q.ask.run r).1 = q.answer r := by
  obtain ⟨more, hrun, -⟩ := q.ask_after hr []
  rw [after_nil] at hrun
  rw [hrun]

end

/-! ## Reviews of what jobs have found -/

theorem getElem?_ofOutputs {jobs : List Job} {outputs : List Output} {b : Option Baseline} {i : Nat}
    {j : Job} {o : Output} (hj : jobs[i]? = some j) (ho : outputs[i]? = some o) :
    (ofOutputs jobs outputs b).jobs[i]? = some ⟨j, o.differences, o.diagnostics, none⟩ := by
  simp [ofOutputs, List.getElem?_zipWith, hj, ho]

/-- Each question has the answer that a fresh review gives. What is left of the differences of a job
is what the first section of its names does not cover. What this section lists in vain is reported
with the job once and in order, or not yet, and certainly when the job was asked for. -/
theorem ask_in_any_order (jobs : List Job) (outputs : List Output) (b : Option Baseline)
    (qs : List Question) :
    let r := ofOutputs jobs outputs b
    let found := (qs.mapM Question.ask).run r
    found.1 = qs.map (fun q => (q.ask.run r).1) ∧
    ∀ i j o, jobs[i]? = some j → outputs[i]? = some o →
      ((Question.differences i).ask.run r).1 =
        .differences (some ((b.getD .empty).remaining j o.differences)) ∧
      ∃ reported, found.2.jobs[i]?.map (·.diagnostics) = some (o.diagnostics ++ reported) ∧
        let unused := (b.getD .empty).unneeded j o.differences
        (reported = [] ∨ reported = unused.map Suppression.unusedDiagnostic) ∧
        (.differences i ∈ qs ∨ .uncoveredCount ∈ qs →
          reported = unused.map Suppression.unusedDiagnostic) := by
  intro r found
  have hr : r.IsFresh := isFresh_ofOutputs jobs outputs b
  obtain ⟨more, hfound, hmore⟩ := mapM_ask_after hr qs []
  rw [after_nil, List.append_nil] at hfound
  refine ⟨?_, fun i j o hj ho => ?_⟩
  · show ((qs.mapM Question.ask).run r).1 = _
    rw [hfound]
    exact List.map_congr_left fun q _ => (q.ask_fresh hr).symm
  have hi : r.jobs[i]? = some ⟨j, o.differences, o.diagnostics, none⟩ := getElem?_ofOutputs hj ho
  constructor
  · rw [Question.ask_fresh hr, Question.answer, hi, Option.map_some, answer_eq_remaining]
    rfl
  have hlt : i < r.jobs.length := (List.getElem?_eq_some_iff.1 hi).1
  have hasked : .differences i ∈ qs ∨ .uncoveredCount ∈ qs → i ∈ more := by
    rintro (h | h)
    · exact hmore _ h i (List.mem_singleton_self i)
    · exact hmore _ h i (List.mem_range.2 hlt)
  have hstate : found.2.jobs[i]? =
      r.jobs[i]?.map fun j => if i ∈ more then r.settled j else j := by
    show ((qs.mapM Question.ask).run r).2.jobs[i]? = _
    rw [hfound]
    exact getElem?_after r more i
  rw [hstate, hi]
  by_cases hmem : i ∈ more
  · refine ⟨_, ?_, .inr rfl, fun _ => rfl⟩
    simp only [Option.map_some, if_pos hmem, settled, unneeded_eq]
    rfl
  · refine ⟨[], ?_, .inl rfl, fun h => absurd (hasked h) hmem⟩
    simp [hmem]

/-- A suppression that is listed twice, and questions that settle the only job more than once. -/
theorem ask_in_any_order_pairJob :
    let outputs := [⟨[sealedOne, sealedTwo], []⟩]
    let r := ofOutputs [pairJob] outputs (some (pairBaseline [[sealedOne, sealedOne]]))
    let qs := [.hasUnused, .differences 0, .uncoveredCount, .differences 0]
    ((qs.mapM Question.ask).run r).2.jobs[0]?.map (·.diagnostics) =
      some [(Suppression.ofDifference sealedOne).unusedDiagnostic] := by
  intro outputs r qs
  let b := pairBaseline [[sealedOne, sealedOne]]
  obtain ⟨-, hjobs⟩ := ask_in_any_order [pairJob] outputs (some b) qs
  obtain ⟨-, reported, hdiagnostics, -, hreported⟩ := hjobs 0 pairJob ⟨_, _⟩ rfl rfl
  have hunused : ((some b).getD .empty).unneeded pairJob [sealedOne, sealedTwo] =
      [.ofDifference sealedOne] := by decide
  rw [hreported (.inl (by decide)), hunused] at hdiagnostics
  exact hdiagnostics

end ApiEvolution.Review
