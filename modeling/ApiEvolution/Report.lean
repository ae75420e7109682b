import ApiEvolution.Baseline.Document
import ApiEvolution.CommandLine
import ApiEvolution.FileTree
import ApiEvolution.Job.ListFormat
import ApiEvolution.Run.Review

/-!
# Reports

A run from the command line: the job sources are read, the jobs are run, and either the differences
that the baseline does not cover are reported, or the baseline is written anew. Nothing is written
before everything has been read and compared.
-/

namespace ApiEvolution

/-- Why a run fails. -/
inductive RunFailure where
  | file (cause : FileError)
  | jobList (cause : JobList.Fault)
  | baseline (cause : Document.Fault)
  | run (cause : RunError)
deriving DecidableEq, Repr

/-- Whether the builds are compatible, as a command tells it. -/
inductive ExitStatus where
  | success
  | failure
deriving DecidableEq, Repr

namespace ExitStatus

def render : ExitStatus → String
  | success => "Success"
  | failure => "Failure"

def code : ExitStatus → Nat
  | success => 0
  | failure => 1

end ExitStatus

/-! ## Texts -/

namespace Review

/-- What is reported about a job: nothing, if no difference is left. -/
def jobReport (j : Job) : List Difference → String
  | [] => ""
  | ds =>
    "Compatability errors between '" ++ j.left.name ++ "' and '" ++ j.right.name ++ "':\n" ++
      String.join (ds.map fun d => "error " ++ d.render ++ "\n") ++ "---\n"

/-- The report on all jobs. -/
def report : ReviewM String := do
  let found ← allDifferences
  let warning :=
    if ← hasUnused then "warning: suppression file contains unused suppressions\n" else ""
  return String.join (found.map fun f => jobReport f.1 f.2) ++ warning

/-- The diagnostics of all jobs that have any. -/
def diagnosticsReport (r : Review) : String :=
  String.join (r.jobs.map fun j =>
    match j.diagnostics with
    | [] => ""
    | ds =>
      "'" ++ j.job.left.name ++ "' and '" ++ j.job.right.name ++ "':\n" ++ Diagnostic.summary ds)

end Review

/-! ## Commands -/

/-- What a command works on: files, and an output that takes at most `capacity` bytes. -/
structure Workspace where
  files : FileTree
  output : String := ""
  capacity : Option Nat := none

/-- A command works on a workspace; what it did before it failed stays done. -/
abbrev Command := ExceptT RunFailure (StateM Workspace)

namespace Command

/-- A result that was found without the workspace. -/
def ofExcept {ε α : Type} (failure : ε → RunFailure) (result : Except ε α) : Command α := fun w =>
  (result.mapError failure, w)

/-- The text of a file. -/
def readFile (p : Path) : Command String := fun w =>
  ((w.files.read p).mapError .file, w)

/-- Writes a file. -/
def writeFile (p : Path) (text : String) : Command Unit := fun w =>
  match w.files.write p text with
  | .ok files => (.ok (), { w with files })
  | .error e => (.error (.file e), w)

/-- Adds to the output if there is room for all of it. -/
def print (text : String) : Command Unit := fun w =>
  let output := w.output ++ text
  if w.capacity.any (· < output.utf8ByteSize) then (.error (.file .storageFull), w)
  else (.ok (), { w with output })

end Command

namespace JobSource

/-- The job of two builds that are named by the paths of their assemblies. -/
def pairJob (leftAssembly : Path) (leftReferences : String) (rightAssembly : Path)
    (rightReferences : String) : Job :=
  ⟨⟨leftAssembly.text, leftAssembly, JobList.referencePaths leftReferences⟩,
    ⟨rightAssembly.text, rightAssembly, JobList.referencePaths rightReferences⟩⟩

/-- The jobs of a source. -/
def load : JobSource → Command (List Job)
  | pair a left b right => do
    let left ← Command.readFile left
    let right ← Command.readFile right
    return [pairJob a left b right]
  | list p => do
    let text ← Command.readFile p
    Command.ofExcept .jobList (JobList.parse text p.text)

/-- The jobs of all sources. -/
def loadAll : List JobSource → Command (List Job)
  | [] => return []
  | s :: rest => do
    let jobs ← s.load
    return jobs ++ (← loadAll rest)

end JobSource

namespace Options

/-- The baseline in the file; a file that does not exist is none. -/
def loadBaseline (o : Options) : Command (Option Baseline) := do
  if (← get).files.contains o.baselineFile then
    let text ← Command.readFile o.baselineFile
    some <$> Command.ofExcept .baseline (Baseline.read text)
  else
    return none

/-- What the jobs of a run have found. -/
def execute (o : Options) (read : Reader) : Command Review := do
  let jobs ← JobSource.loadAll o.sources
  let baseline ← if o.writeBaseline then pure none else o.loadBaseline
  Command.ofExcept .run (RunRequest.execute { read, jobs, baseline })

/-- The report on a review, and whether any difference is left. -/
def reportOn (o : Options) : ReviewM (String × ExitStatus) := do
  let report ← Review.report
  let review ← get
  let diagnostics := if o.verbose then review.diagnosticsReport else ""
  let left ← Review.uncoveredCount
  return (report ++ diagnostics, if 0 < left then .failure else .success)

/-- Compares, and then reports on what the baseline does not cover, or writes the baseline anew. -/
def run (o : Options) (read : Reader) : Command ExitStatus := do
  let review ← o.execute read
  if o.writeBaseline then
    Command.writeFile o.baselineFile review.acceptingBaseline.render
    return .success
  else
    let found := (o.reportOn.run review).1
    Command.print found.1
    return found.2

end Options

end ApiEvolution
