import ApiEvolution.Path
import ApiEvolution.Text.Decimal

/-!
# Command line

The arguments are the baseline file, one or more job sources, and options, which may stand anywhere.
Behind `--` every argument is positional. Arguments take effect one after the other, so the first
fault is told. But the value of an option that is an argument of its own, and a positional argument,
are looked at only when the next argument takes effect, and an option that does not exist or takes
no value is told before that (`Pending`).
-/

namespace ApiEvolution

/-- Where jobs come from. -/
inductive JobSource where
  /-- two builds, each with its reference file -/
  | pair (leftAssembly leftReferences rightAssembly rightReferences : Path)
  /-- a job list -/
  | list (path : Path)
deriving DecidableEq, Repr

/-- What is to be done. -/
structure Options where
  baselineFile : Path
  sources : List JobSource
  writeBaseline : Bool := false
  parallelism : Option Nat := none
  verbose : Bool := false
deriving DecidableEq, Repr

namespace CommandLine

/-- Why there is nothing to be done with the arguments. -/
inductive UsageError where
  | missingRequiredArgument
  | unknownArgument
  | valueValidation
  | invalidValue
  | argumentConflict
  | tooManyValues
  | displayHelp
  | displayVersion
deriving DecidableEq, Repr

def UsageError.render : UsageError → String
  | missingRequiredArgument => "MissingRequiredArgument"
  | unknownArgument => "UnknownArgument"
  | valueValidation => "ValueValidation"
  | invalidValue => "InvalidValue"
  | argumentConflict => "ArgumentConflict"
  | tooManyValues => "TooManyValues"
  | displayHelp => "DisplayHelp"
  | displayVersion => "DisplayVersion"

/-- The options. -/
inductive Flag where
  | writeSuppressions
  | verbose
  | help
  | version
  | parallelism
deriving DecidableEq, Repr

/-- The option with a given long name. -/
def Flag.ofLong? (name : String) : Option Flag :=
  [("write-suppressions", writeSuppressions), ("verbose", verbose), ("help", help),
    ("version", version), ("parallelism", parallelism)].lookup name

/-- The option with a given letter. -/
def Flag.ofShort? (c : Char) : Option Flag :=
  [('v', verbose), ('h', help), ('V', version), ('j', parallelism)].lookup c

/-- What is not settled before the next argument takes effect. -/
inductive Pending where
  | nothing
  /-- an option whose value is to come -/
  | valueOf
  /-- an option and its value -/
  | value (text : String)
  /-- the first positional argument -/
  | baselineFile (text : String)
  /-- positional arguments in a row -/
  | sources (texts : List String)
deriving DecidableEq, Repr

/-- What the arguments up to some point say. -/
structure Parsed where
  pending : Pending := .nothing
  /-- all further arguments are positional -/
  trailing : Bool := false
  baselineFile : Option Path := none
  sources : List Path := []
  writeSuppressions : Bool := false
  verbose : Bool := false
  parallelism : Option Nat := none
deriving DecidableEq, Repr

abbrev Result := Except UsageError

/-- Sets the number of jobs that run at a time; it can be given once. -/
def setParallelism (p : Parsed) (text : String) : Result Parsed :=
  if p.parallelism.isSome then .error .argumentConflict
  else
    match Text.Decimal.read? UInt64.size text.toList with
    | some n => .ok { p with parallelism := some n }
    | none => .error .valueValidation

/-- Settles what is pending; no positional argument may be empty. -/
def settle (p : Parsed) : Result Parsed :=
  match p.pending with
  | .nothing => .ok p
  | .valueOf => .error .invalidValue
  | .value text => setParallelism { p with pending := .nothing } text
  | .baselineFile text =>
    if text.isEmpty then .error .invalidValue
    else .ok { p with pending := .nothing, baselineFile := some ⟨text⟩ }
  | .sources texts =>
    if texts.any (·.isEmpty) then .error .invalidValue
    else .ok { p with pending := .nothing, sources := p.sources ++ texts.map Path.mk }

/-- An option without a value takes effect; it can be given once. -/
def setFlag (p : Parsed) (f : Flag) : Result Parsed := do
  let p ← settle p
  match f with
  | .help => throw .displayHelp
  | .version => throw .displayVersion
  | .verbose => if p.verbose then throw .argumentConflict else return { p with verbose := true }
  | .writeSuppressions =>
    if p.writeSuppressions then throw .argumentConflict
    else return { p with writeSuppressions := true }
  | .parallelism => return { p with pending := .valueOf }

/-- The value behind the letter of an option, which may be separated by `=`. -/
def attachedValue? : List Char → Option String
  | [] => none
  | '=' :: value => some (String.ofList value)
  | value => some (String.ofList value)

/-- The letters behind a hyphen. -/
def takeShort (p : Parsed) : List Char → Result Parsed
  | [] => .ok p
  | c :: rest =>
    match Flag.ofShort? c with
    | none => .error .unknownArgument
    | some .parallelism => do
      let p ← settle p
      match attachedValue? rest with
      | some value => setParallelism p value
      | none => return { p with pending := .valueOf }
    | some f => do takeShort (← setFlag p f) rest

/-- The name behind two hyphens, and the value behind it, separated by `=`. -/
def takeLong (p : Parsed) (s : List Char) : Result Parsed :=
  match Flag.ofLong? (String.ofList (s.takeWhile (· != '='))), s.dropWhile (· != '=') with
  | none, _ => .error .unknownArgument
  | some f, [] => setFlag p f
  | some .parallelism, _ :: value => do setParallelism (← settle p) (String.ofList value)
  | some _, _ :: _ => .error .tooManyValues

/-- A positional argument: the baseline file, or else a source; sources in a row are settled
together. -/
def takePositional (p : Parsed) (text : String) : Result Parsed :=
  match p.pending with
  | .sources texts => .ok { p with pending := .sources (texts ++ [text]) }
  | _ => do
    let p ← settle p
    return { p with
      pending := if p.baselineFile.isNone then .baselineFile text else .sources [text] }

/-- The value of an option that waits for one, or else a positional argument. -/
def takePlain (p : Parsed) (text : String) : Result Parsed :=
  match p.trailing, p.pending with
  | false, .valueOf => .ok { p with pending := .value text }
  | _, _ => takePositional p text

/-- One argument takes effect. -/
def take (p : Parsed) (text : String) : Result Parsed :=
  if p.trailing then takePositional p text
  else
    match text.toList with
    | ['-', '-'] => .ok { p with trailing := true }
    | '-' :: '-' :: name => takeLong p name
    | '-' :: c :: rest => takeShort p (c :: rest)
    | _ => takePlain p text

/-- Four sources are a pair of builds, any other number of sources are job lists. -/
def sourcesOf : List Path → List JobSource
  | [a, b, c, d] => [.pair a b c d]
  | paths => paths.map .list

/-- What all arguments together say. -/
def finish (p : Parsed) : Result Options := do
  let p ← settle p
  match p.baselineFile, p.sources with
  | some baselineFile, s :: rest =>
    return {
      baselineFile
      sources := sourcesOf (s :: rest)
      writeBaseline := p.writeSuppressions
      parallelism := p.parallelism
      verbose := p.verbose }
  | _, _ => throw .missingRequiredArgument

/-- Reads the arguments. -/
def parse (arguments : List String) : Result Options := do
  finish (← arguments.foldlM take {})

end CommandLine

end ApiEvolution
