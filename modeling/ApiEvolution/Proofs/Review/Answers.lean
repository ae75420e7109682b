import ApiEvolution.Run.Review

/-!
# What a review answers

The state of a review that began fresh is determined by which jobs were asked for, in whatever
order: it is `Review.after`. So every question has one answer, whenever it is asked:
`differences_after` for the differences of a job, `allDifferences_after` for those of all jobs,
`run_hasUnused_after` for whether anything in the baseline was not needed, and
`uncoveredCount_after` for how many differences it does not cover.
-/

namespace ApiEvolution.Review

/-- No job was asked for yet. -/
def IsFresh (r : Review) : Prop :=
  ∀ j ∈ r.jobs, j.filtered = none

/-- The differences of a job that its section does not cover. -/
def answer (r : Review) (j : ReviewedJob) : List Difference :=
  match r.section? j.job with
  | none => j.raw
  | some s => s.uncovered j.raw

/-- The suppressions in the section of a job that were not needed. -/
def unneeded (r : Review) (j : ReviewedJob) : List Suppression :=
  match r.section? j.job with
  | none => []
  | some s => s.unused j.raw

/-- A job that was asked for. -/
def settled (r : Review) (j : ReviewedJob) : ReviewedJob :=
  { j with
    filtered := some (r.answer j)
    diagnostics := j.diagnostics ++ (r.unneeded j).map Suppression.unusedDiagnostic }

/-- The review when the jobs at the given positions were asked for. -/
def after (r : Review) (asked : List Nat) : Review :=
  { r with
    jobs := r.jobs.mapIdx fun i j => if i ∈ asked then r.settled j else j
    unusedSeen := r.unusedSeen ||
      asked.any fun i => r.jobs[i]?.any fun j => !(r.unneeded j).isEmpty }

/-- Something in the baseline is not needed: a section without a job, or a suppression. -/
def foundUnused (r : Review) : Bool :=
  r.unusedSeen || r.jobs.any fun j => !(r.unneeded j).isEmpty

/-! ## One job -/

theorem after_nil (r : Review) : r.after [] = r := by
  have hjobs : (r.after []).jobs = r.jobs := by
    refine List.ext_getElem? fun i => ?_
    simp [after]
  simp only [after, List.any_nil, Bool.or_false] at hjobs ⊢
  rw [hjobs]

theorem getElem?_after (r : Review) (asked : List Nat) (i : Nat) :
    (r.after asked).jobs[i]? = r.jobs[i]?.map fun j => if i ∈ asked then r.settled j else j := by
  simp only [after, List.getElem?_mapIdx]

/-- The state depends on nothing but which jobs that there are were asked for. -/
theorem after_congr {r : Review} {asked asked' : List Nat}
    (h : ∀ i < r.jobs.length, i ∈ asked ↔ i ∈ asked') : r.after asked = r.after asked' := by
  have hjobs : (r.after asked).jobs = (r.after asked').jobs := by
    refine List.ext_getElem? fun i => ?_
    rw [getElem?_after, getElem?_after]
    cases hj : r.jobs[i]? with
    | none => rfl
    | some j => simp only [h i (List.getElem?_eq_some_iff.1 hj).1]
  have hseen : ∀ {as bs : List Nat}, (∀ i < r.jobs.length, i ∈ as → i ∈ bs) →
      (as.any fun i => r.jobs[i]?.any fun j => !(r.unneeded j).isEmpty) →
        bs.any fun i => r.jobs[i]?.any fun j => !(r.unneeded j).isEmpty := by
    intro as bs hab ha
    obtain ⟨i, hi, hu⟩ := List.any_eq_true.1 ha
    obtain ⟨j, hj, -⟩ := (Option.any_eq_true _ _).1 hu
    exact List.any_eq_true.2 ⟨i, hab i (List.getElem?_eq_some_iff.1 hj).1 hi, hu⟩
  have hany : (asked.any fun i => r.jobs[i]?.any fun j => !(r.unneeded j).isEmpty) =
      asked'.any fun i => r.jobs[i]?.any fun j => !(r.unneeded j).isEmpty :=
    Bool.eq_iff_iff.2 ⟨hseen fun i hi => (h i hi).1, hseen fun i hi => (h i hi).2⟩
  simp only [after, Review.mk.injEq, true_and] at hjobs ⊢
  exact ⟨hjobs, by rw [hany]⟩

/-- Filtering settles the job. -/
theorem filterJob_eq (r : Review) (i : Nat) (j : ReviewedJob) :
    r.filterJob i j = { r with
      jobs := r.jobs.set i (r.settled j)
      unusedSeen := r.unusedSeen || !(r.unneeded j).isEmpty } := by
  unfold filterJob settled answer unneeded
  cases r.section? j.job <;> simp

theorem settled_after (r : Review) (asked : List Nat) (j : ReviewedJob) :
    (r.after asked).settled j = r.settled j := rfl

theorem unneeded_after (r : Review) (asked : List Nat) (j : ReviewedJob) :
    (r.after asked).unneeded j = r.unneeded j := rfl

/-- Filtering a job that was not asked for before. -/
theorem filterJob_after {r : Review} {asked : List Nat} {i : Nat} {j : ReviewedJob}
    (hj : r.jobs[i]? = some j) : (r.after asked).filterJob i j = r.after (i :: asked) := by
  have hjobs : (r.after asked).jobs.set i (r.settled j) = (r.after (i :: asked)).jobs := by
    refine List.ext_getElem? fun k => ?_
    rw [List.getElem?_set, getElem?_after, getElem?_after]
    by_cases hik : i = k
    · subst hik
      have hlen : i < (r.after asked).jobs.length := by
        simpa [after] using (List.getElem?_eq_some_iff.1 hj).1
      simp [hj, hlen]
    · simp [hik, Ne.symm hik]
  rw [filterJob_eq, settled_after, unneeded_after, hjobs]
  simp only [after, Review.mk.injEq, true_and, List.any_cons, hj, Option.any_some]
  rw [Bool.or_assoc, Bool.or_comm (asked.any _)]

/-- The differences of a job are the same whenever they are asked for. -/
theorem differences_after {r : Review} (hr : r.IsFresh) (asked : List Nat) (i : Nat) :
    (differences i).run (r.after asked) = (r.jobs[i]?.map r.answer, r.after (i :: asked)) := by
  have hget := getElem?_after r asked i
  cases hj : r.jobs[i]? with
  | none =>
    have hsame : r.after (i :: asked) = r.after asked := after_congr fun k hk => by
      have hne : k ≠ i := by
        rintro rfl
        exact absurd hj (by simp [List.getElem?_eq_getElem hk])
      simp [hne]
    rw [hj] at hget
    simp only [Option.map_none] at hget
    simp only [StateT.run, differences, hget, hsame, Option.map_none]
  | some j =>
    rw [hj] at hget
    simp only [Option.map_some] at hget
    by_cases hi : i ∈ asked
    · have hsame : r.after (i :: asked) = r.after asked := after_congr fun k _ => by
        simp only [List.mem_cons]
        exact ⟨fun h => h.elim (fun e => e ▸ hi) id, .inr⟩
      rw [if_pos hi] at hget
      simp only [StateT.run, differences, hget, hsame, Option.map_some, settled]
    · have hnone : j.filtered = none := hr j (List.mem_of_getElem? hj)
      rw [if_neg hi] at hget
      have hnew := getElem?_after r (i :: asked) i
      rw [hj] at hnew
      simp only [Option.map_some, List.mem_cons, true_or, ↓reduceIte] at hnew
      simp only [StateT.run, differences, hget, hnone, filterJob_after hj, hnew, Option.bind_some,
        Option.map_some, settled]

/-! ## Any jobs -/

theorem isFresh_ofOutputs (jobs : List Job) (outputs : List Output) (b : Option Baseline) :
    (ofOutputs jobs outputs b).IsFresh := by
  intro j hj
  obtain ⟨i, hi, rfl⟩ := List.getElem_of_mem hj
  simp [ofOutputs]

theorem run_mapM_differences_after {r : Review} (hr : r.IsFresh) (asked asked' : List Nat) :
    ((asked.mapM differences).run (r.after asked')).2 = r.after (asked.reverse ++ asked') := by
  induction asked generalizing asked' with
  | nil => rfl
  | cons i asked ih =>
    have hcons : (((i :: asked).mapM differences).run (r.after asked')).2 =
        ((asked.mapM differences).run ((differences i).run (r.after asked')).2).2 := by
      rw [List.mapM_cons]
      rfl
    rw [hcons, differences_after hr, ih]
    simp

/-- The state that asking for jobs leads to. -/
theorem run_mapM_differences {r : Review} (hr : r.IsFresh) (asked : List Nat) :
    ((asked.mapM differences).run r).2 = r.after asked.reverse := by
  have h := run_mapM_differences_after hr asked []
  rwa [after_nil, List.append_nil] at h

/-! ## All jobs -/

/-- Asks for jobs, with their positions, one after the other. -/
def inquire (js : List (ReviewedJob × Nat)) : ReviewM (List (Job × List Difference)) :=
  js.mapM fun j => do return (j.1.job, (← differences j.2).getD [])

theorem inquire_cons (j : ReviewedJob × Nat) (js : List (ReviewedJob × Nat)) (r : Review) :
    (inquire (j :: js)).run r =
      let first := (differences j.2).run r
      let rest := (inquire js).run first.2
      ((j.1.job, first.1.getD []) :: rest.1, rest.2) := by
  rw [inquire, List.mapM_cons]
  rfl

theorem inquire_after {r : Review} (hr : r.IsFresh) (asked : List Nat)
    (js : List (ReviewedJob × Nat)) :
    (inquire js).run (r.after asked) =
      (js.map fun j => (j.1.job, (r.jobs[j.2]?.map r.answer).getD []),
        r.after ((js.map (·.2)).reverse ++ asked)) := by
  induction js generalizing asked with
  | nil => rfl
  | cons j js ih =>
    rw [inquire_cons, differences_after hr]
    simp [ih]

/-- The differences of all jobs are the same whenever they are asked for. -/
theorem allDifferences_after {r : Review} (hr : r.IsFresh) (asked : List Nat) :
    allDifferences.run (r.after asked) =
      (r.jobs.map fun j => (j.job, r.answer j), r.after (List.range r.jobs.length)) := by
  have hask : allDifferences.run (r.after asked) =
      (inquire (r.after asked).jobs.zipIdx).run (r.after asked) := rfl
  rw [hask, inquire_after hr]
  refine Prod.ext ?_ (after_congr fun i hi => ?_)
  · refine List.ext_getElem? fun i => ?_
    simp only [List.getElem?_map, List.getElem?_zipIdx, getElem?_after]
    cases hj : r.jobs[i]? with
    | none => rfl
    | some j =>
      simp only [Option.map_some, Nat.zero_add, hj, Option.getD_some]
      split <;> rfl
  · have hlen : (r.after asked).jobs.length = r.jobs.length := by simp [after]
    have hall : (r.after asked).jobs.zipIdx.map (·.2) = List.range r.jobs.length := by
      rw [List.zipIdx_map_snd, hlen, List.range_eq_range']
    simp [hall, hi]

/-- What was noticed is there. -/
theorem foundUnused_of_unusedSeen_after {r : Review} {asked : List Nat}
    (h : (r.after asked).unusedSeen) : r.foundUnused := by
  simp only [after, foundUnused, Bool.or_eq_true, List.any_eq_true] at h ⊢
  refine h.imp_right fun ⟨i, _, hi⟩ => ?_
  obtain ⟨j, hj, hu⟩ := (Option.any_eq_true _ _).1 hi
  exact ⟨j, List.mem_of_getElem? hj, hu⟩

/-- When all jobs were asked for, all there is was noticed. -/
theorem unusedSeen_after_range (r : Review) :
    (r.after (List.range r.jobs.length)).unusedSeen = r.foundUnused := by
  refine Bool.eq_iff_iff.2 ⟨foundUnused_of_unusedSeen_after, fun h => ?_⟩
  simp only [after, foundUnused, Bool.or_eq_true, List.any_eq_true] at h ⊢
  refine h.imp_right fun ⟨j, hj, hu⟩ => ?_
  obtain ⟨i, hi, rfl⟩ := List.getElem_of_mem hj
  refine ⟨i, List.mem_range.2 hi, ?_⟩
  rw [List.getElem?_eq_getElem hi]
  exact hu

/-- Whether anything is not needed does not depend on when it is asked. All jobs are asked for unless
something was noticed before. -/
theorem run_hasUnused_after {r : Review} (hr : r.IsFresh) (asked : List Nat) :
    hasUnused.run (r.after asked) = (r.foundUnused,
      if (r.after asked).unusedSeen then r.after asked
      else r.after (List.range r.jobs.length)) := by
  have hask : hasUnused.run (r.after asked) =
      if (r.after asked).unusedSeen then (true, r.after asked)
      else ((allDifferences.run (r.after asked)).2.unusedSeen,
        (allDifferences.run (r.after asked)).2) := by
    unfold hasUnused
    rw [StateT.run_bind]
    simp only [StateT.run_get, pure_bind]
    split <;> rfl
  rw [hask, allDifferences_after hr, unusedSeen_after_range]
  by_cases h : (r.after asked).unusedSeen
  · rw [if_pos h, if_pos h, foundUnused_of_unusedSeen_after h]
  · rw [if_neg h, if_neg h]

theorem hasUnused_after {r : Review} (hr : r.IsFresh) (asked : List Nat) :
    (hasUnused.run (r.after asked)).1 = r.foundUnused := by
  rw [run_hasUnused_after hr]

/-- How many differences are not covered does not depend on when it is asked. -/
theorem uncoveredCount_after {r : Review} (hr : r.IsFresh) (asked : List Nat) :
    uncoveredCount.run (r.after asked) =
      ((r.jobs.flatMap r.answer).length, r.after (List.range r.jobs.length)) := by
  have hcount : uncoveredCount.run (r.after asked) =
      let found := allDifferences.run (r.after asked)
      ((found.1.flatMap (·.2)).length, found.2) := by
    unfold uncoveredCount
    rw [StateT.run_bind]
    rfl
  rw [hcount, allDifferences_after hr]
  simp only [List.flatMap_map]

end ApiEvolution.Review
