import ApiEvolution.Baseline.Basic
import ApiEvolution.Run.Schedule

/-!
# Reviewing results against a baseline

A `Review` holds what the jobs of a run have found, and a baseline. The differences of a job that
its section of the baseline covers are taken out when they are asked for the first time; at that
moment the suppressions that covered nothing are noticed and reported, once for each job.
-/

namespace ApiEvolution

namespace Section

/-- The differences that no suppression of the section covers. -/
def uncovered (s : Section) (ds : List Difference) : List Difference :=
  ds.filter fun d => (s.positionCovering? d).isNone

/-- The positions of the suppressions that the differences are covered by. -/
def usedPositions (s : Section) (ds : List Difference) : List Nat :=
  ds.filterMap s.positionCovering?

/-- The suppressions that no difference is covered by, in order. A suppression behind an equal one
is never used. -/
def unused (s : Section) (ds : List Difference) : List Suppression :=
  let used := s.usedPositions ds
  (s.suppressions.zipIdx.filter fun x => !used.contains x.2).map (·.1)

end Section

/-- The report of a suppression that was not needed. -/
def Suppression.unusedDiagnostic (s : Suppression) : Diagnostic :=
  ⟨.suppressionUnused s.change.render s.typeName s.message, none⟩

/-- A job, what it has found, and what is left of the differences if they were asked for. -/
structure ReviewedJob where
  job : Job
  raw : List Difference
  diagnostics : List Diagnostic
  filtered : Option (List Difference)

/-- The results of a run and a baseline. -/
structure Review where
  jobs : List ReviewedJob
  baseline : Option Baseline
  unusedSeen : Bool

/-- A question to a review. -/
abbrev ReviewM := StateM Review

namespace Review

/-- Some section of the baseline belongs to no job. -/
def hasOrphan (jobs : List Job) (b : Baseline) : Bool :=
  b.sections.any fun s => !jobs.any (Job.isOf s.left s.right)

/-- The review of what the jobs have found. -/
def ofOutputs (jobs : List Job) (outputs : List Output) (b : Option Baseline) : Review :=
  ⟨List.zipWith (fun j o => ⟨j, o.differences, o.diagnostics, none⟩) jobs outputs, b,
    b.any (hasOrphan jobs)⟩

/-- The section of the baseline that a job is filtered by: the first one of its names, unless it is
empty. -/
def section? (r : Review) (j : Job) : Option Section :=
  r.baseline.bind fun b =>
    (b.section? j.left.name j.right.name).filter fun s => !s.suppressions.isEmpty

/-- Filters a job that was not filtered before. -/
def filterJob (r : Review) (i : Nat) (j : ReviewedJob) : Review :=
  match r.section? j.job with
  | none => { r with jobs := r.jobs.set i { j with filtered := some j.raw } }
  | some s =>
    let unused := s.unused j.raw
    { r with
      jobs := r.jobs.set i
        { j with
          filtered := some (s.uncovered j.raw)
          diagnostics := j.diagnostics ++ unused.map Suppression.unusedDiagnostic }
      unusedSeen := r.unusedSeen || !unused.isEmpty }

/-- The differences of a job that the baseline does not cover; none if there is no such job. -/
def differences (i : Nat) : ReviewM (Option (List Difference)) := fun r =>
  match r.jobs[i]? with
  | none => (none, r)
  | some j =>
    match j.filtered with
    | some ds => (some ds, r)
    | none =>
      let r := r.filterJob i j
      (r.jobs[i]?.bind (·.filtered), r)

/-- The differences of all jobs that the baseline does not cover. -/
def allDifferences : ReviewM (List (Job × List Difference)) := do
  let r ← get
  r.jobs.zipIdx.mapM fun j => do
    return (j.1.job, (← differences j.2).getD [])

/-- How many differences the baseline does not cover. -/
def uncoveredCount : ReviewM Nat := do
  return ((← allDifferences).flatMap (·.2)).length

/-- The baseline has a section without a job or a suppression that was not needed. All jobs are
filtered unless one such is known. -/
def hasUnused : ReviewM Bool := do
  if (← get).unusedSeen then
    return true
  else
    let _ ← allDifferences
    return (← get).unusedSeen

/-- The baseline that accepts everything the jobs have found. -/
def acceptingBaseline (r : Review) : Baseline :=
  .ofDifferences (r.jobs.map fun j => (j.job.left.name, j.job.right.name, j.raw))

end Review

/-! ## Runs -/

/-- What a run is to do. -/
structure RunRequest where
  read : Reader
  jobs : List Job
  selection : Selection := .visible
  baseline : Option Baseline := none
  /-- the run is cancelled before it begins -/
  cancelled : Bool := false
  /-- reading this path cancels the run -/
  cancelOn : Option Path := none

namespace RunRequest

/-- The result of a run in which the jobs follow a given schedule. -/
def executeBy (q : RunRequest) (s : Schedule) (outcomes : Nat → Except LoadError Output) :
    Except RunError Review :=
  let jobs := Job.sorted q.jobs
  match ((Execution.start jobs.length q.cancelled).run outcomes s).collect with
  | .ok outputs => .ok (.ofOutputs jobs outputs q.baseline)
  | .error e => .error e

/-- The jobs in order, and what happens when they run. -/
def runs (q : RunRequest) : List (Except LoadError Output × List Path) :=
  (Job.sorted q.jobs).map (Job.run q.read q.selection)

/-- How job `i` ends if it runs. -/
def outcomeOf (runs : List (Except LoadError Output × List Path)) (i : Nat) :
    Except LoadError Output :=
  match runs[i]? with
  | some r => r.1
  | none => .ok ⟨[], []⟩

/-- Job `i` reads the path that cancels the run. -/
def cancels (q : RunRequest) (runs : List (Except LoadError Output × List Path)) (i : Nat) : Bool :=
  match runs[i]?, q.cancelOn with
  | some r, some p => r.2.any p.agrees
  | _, _ => false

/-- Runs one job after the other. -/
def execute (q : RunRequest) : Except RunError Review :=
  let runs := q.runs
  q.executeBy (.sequential (q.cancels runs) runs.length) (outcomeOf runs)

/-- The paths that are read when one job runs after the other. -/
def reads (q : RunRequest) : List Path :=
  let runs := q.runs
  let e := (Execution.start runs.length q.cancelled).run (outcomeOf runs)
    (.sequential (q.cancels runs) runs.length)
  (List.zip e.slots runs).flatMap fun
    | (.finished _, r) => r.2
    | _ => []

end RunRequest

end ApiEvolution
