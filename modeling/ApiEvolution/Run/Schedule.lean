import ApiEvolution.Run.Comparison

/-!
# Schedules

Many jobs run in some order and overlap, which a `Schedule` says: a list of starts, ends and a
request to cancel. A job that is about to start is skipped if the run was cancelled or some job has
failed; a job that has started always ends. `collect` makes one result of what has become of the
jobs, in the order of the jobs.
-/

namespace ApiEvolution

/-- What has become of a job. -/
inductive Slot where
  | waiting
  | running
  | skipped
  | finished (outcome : Except LoadError Output)

/-- Something that happens during a run. -/
inductive Event where
  /-- job `i` is about to start -/
  | start (i : Nat)
  /-- job `i` ends -/
  | finish (i : Nat)
  | cancel
deriving DecidableEq, Repr

/-- What happens during a run, in order. -/
abbrev Schedule := List Event

/-- The state of a run. -/
structure Execution where
  slots : List Slot
  cancelled : Bool
  failed : Bool
  completed : Nat

/-- Why there is no result. -/
inductive RunError where
  | load (cause : LoadError)
  | cancelled (completed total : Nat)
deriving DecidableEq, Repr

def RunError.message : RunError → String
  | load cause => cause.message
  | cancelled completed total =>
    "Comparison cancelled after " ++ Text.Decimal.render completed ++ " of " ++
      Text.Decimal.render total ++ " jobs"

namespace Execution

/-- A number of jobs, none of which has started. -/
def start (jobs : Nat) (cancelled : Bool) : Execution :=
  ⟨List.replicate jobs .waiting, cancelled, false, 0⟩

/-- Records how a job ended. -/
def finish (i : Nat) (outcome : Except LoadError Output) (e : Execution) : Execution :=
  let slots := e.slots.set i (.finished outcome)
  match outcome with
  | .ok _ => { e with slots, completed := e.completed + 1 }
  | .error _ => { e with slots, failed := true }

/-- What an event changes; `outcomes` says how each job ends if it runs. An event that cannot happen
changes nothing. -/
def step (outcomes : Nat → Except LoadError Output) (e : Execution) : Event → Execution
  | .cancel => { e with cancelled := true }
  | .start i =>
    match e.slots[i]? with
    | some .waiting =>
      { e with slots := e.slots.set i (if e.cancelled || e.failed then .skipped else .running) }
    | _ => e
  | .finish i =>
    match e.slots[i]? with
    | some .running => e.finish i (outcomes i)
    | _ => e

/-- The state after a schedule. -/
def run (outcomes : Nat → Except LoadError Output) (e : Execution) (s : Schedule) : Execution :=
  s.foldl (step outcomes) e

/-- Every job was skipped or has ended. -/
def isOver (e : Execution) : Bool :=
  e.slots.all fun
    | .skipped | .finished _ => true
    | _ => false

/-- The failure of the first job that failed. -/
def firstError? (e : Execution) : Option LoadError :=
  e.slots.findSome? fun
    | .finished (.error cause) => some cause
    | _ => none

/-- The outputs of the jobs that succeeded, in the order of the jobs. -/
def outputs (e : Execution) : List Output :=
  e.slots.filterMap fun
    | .finished (.ok output) => some output
    | _ => none

/-- Some job did not run. -/
def hasSkipped (e : Execution) : Bool :=
  e.slots.any fun
    | .finished _ => false
    | _ => true

/-- The result: the first failure, or else the outputs if every job ran. -/
def collect (e : Execution) : Except RunError (List Output) :=
  match e.firstError? with
  | some cause => .error (.load cause)
  | none =>
    if e.hasSkipped then .error (.cancelled e.completed e.slots.length) else .ok e.outputs

end Execution

/-- One job after the other; a job may have the run cancelled while it runs. -/
def Schedule.sequential (cancelling : Nat → Bool) (jobs : Nat) : Schedule :=
  (List.range jobs).flatMap fun i =>
    if cancelling i then [.start i, .cancel, .finish i] else [.start i, .finish i]

end ApiEvolution
