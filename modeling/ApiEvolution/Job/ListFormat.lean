import ApiEvolution.Job.Basic
import ApiEvolution.Text.Blank
import ApiEvolution.Text.Decimal

/-!
# Job lists

A job list has one value on a line: for each job the name of the left build, the path of its
assembly, how many reference paths there are and those paths, and the same for the right build.
Blanks around a value and blank lines do not count.

The reader goes from value to value; `Reading` says which value it expects next. A list may end
where a new job would begin.
-/

namespace ApiEvolution

namespace JobList

/-- The values of a build. -/
inductive Field where
  | name
  | assemblyPath
  | referenceCount
  | referencePath
deriving DecidableEq, Repr

def Field.render : Field → String
  | name => "name"
  | assemblyPath => "assembly path"
  | referenceCount => "reference count"
  | referencePath => "reference path"

/-- A value of the left or of the right build. -/
structure Slot where
  ofLeft : Bool
  field : Field
deriving DecidableEq, Repr

def Slot.render (s : Slot) : String :=
  (if s.ofLeft then "left " else "right ") ++ s.field.render

/-- Why a text is no job list. -/
inductive Cause where
  /-- the text ends where this value is expected -/
  | missing (slot : Slot)
  /-- a count that is no number -/
  | notANumber (slot : Slot) (value : String)
deriving DecidableEq, Repr

/-- A cause and where it was found; lines count from one. -/
structure Fault where
  source : String
  line : Nat
  cause : Cause
deriving DecidableEq, Repr

def Cause.message : Cause → String
  | missing slot => "unexpected end of job list, expected " ++ slot.render
  | notANumber slot value => slot.render ++ " '" ++ value ++ "' is not a number"

/-- `source:line: message`. -/
def Fault.message (f : Fault) : String :=
  f.source ++ ":" ++ Text.Decimal.render f.line ++ ": " ++ f.cause.message

/-! ## Reading -/

/-- What is known of the build whose values are being read. -/
inductive Stage where
  | name
  | assemblyPath (name : String)
  | referenceCount (name : String) (assembly : Path)
  /-- one reference path and `more` behind it are still to come -/
  | referencePath (build : Build) (more : Nat)
deriving DecidableEq, Repr

/-- The jobs that were read, the left build of the next one if it was read, and the stage of the
build after that. -/
structure Reading where
  jobs : List Job
  left : Option Build
  stage : Stage
deriving DecidableEq, Repr

namespace Reading

/-- Nothing was read. -/
def start : Reading := ⟨[], none, .name⟩

/-- The value that is expected next. -/
def expected (r : Reading) : Slot :=
  ⟨r.left.isNone, match r.stage with
    | .name => .name
    | .assemblyPath _ => .assemblyPath
    | .referenceCount _ _ => .referenceCount
    | .referencePath _ _ => .referencePath⟩

/-- A build is complete; with the right one the job is. -/
def complete (r : Reading) (b : Build) : Reading :=
  match r.left with
  | none => ⟨r.jobs, some b, .name⟩
  | some l => ⟨r.jobs ++ [⟨l, b⟩], none, .name⟩

/-- The build is complete when no reference path is missing. -/
def withReferences (r : Reading) (b : Build) : Nat → Reading
  | 0 => r.complete b
  | more + 1 => { r with stage := .referencePath b more }

/-- Takes one value. -/
def take (r : Reading) (value : String) : Except Cause Reading :=
  match r.stage with
  | .name => .ok { r with stage := .assemblyPath value }
  | .assemblyPath name => .ok { r with stage := .referenceCount name ⟨value⟩ }
  | .referenceCount name assembly =>
    match Text.Decimal.read? UInt64.size value.toList with
    | some count => .ok (r.withReferences ⟨name, assembly, []⟩ count)
    | none => .error (.notANumber r.expected value)
  | .referencePath b more =>
    .ok (r.withReferences { b with references := b.references ++ [⟨value⟩] } more)

/-- The list may end here. -/
def finish (r : Reading) : Except Cause (List Job) :=
  if r.left = none ∧ r.stage = .name then .ok r.jobs else .error (.missing r.expected)

end Reading

/-- The values of a text and the lines they stand on. -/
def values (text : List Char) : List (Nat × String) :=
  ((Text.lines text).zipIdx 1).filterMap fun l =>
    match Text.trim l.1 with
    | [] => none
    | value => some (l.2, String.ofList value)

/-- Takes the values in order; `lines` is the number of lines of the text. -/
def readValues (source : String) (lines : Nat) :
    Reading → List (Nat × String) → Except Fault (List Job)
  | r, [] =>
    match r.finish with
    | .ok jobs => .ok jobs
    | .error cause => .error ⟨source, lines + 1, cause⟩
  | r, (line, value) :: rest =>
    match r.take value with
    | .ok r => readValues source lines r rest
    | .error cause => .error ⟨source, line, cause⟩

/-- Reads a job list; `source` says where it comes from. -/
def parse (text source : String) : Except Fault (List Job) :=
  readValues source (Text.lines text.toList).length .start (values text.toList)

/-- The paths of a reference file: one on a line, blank lines do not count. -/
def referencePaths (text : String) : List Path :=
  (values text.toList).map fun v => ⟨v.2⟩

/-! ## Writing -/

/-- The values of a build. -/
def buildValues (b : Build) : List String :=
  [b.name, b.assembly.text, Text.Decimal.render b.references.length] ++ b.references.map (·.text)

/-- The values of a list of jobs. -/
def jobValues (jobs : List Job) : List String :=
  jobs.flatMap fun j => buildValues j.left ++ buildValues j.right

/-- The job list with one value on a line. -/
def render (jobs : List Job) : String :=
  String.join ((jobValues jobs).map (· ++ "\n"))

end JobList

end ApiEvolution
