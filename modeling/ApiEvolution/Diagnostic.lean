import ApiEvolution.Catalog

/-!
# Diagnostics

What is found on the way that is no difference and no reason to stop: references that lead nowhere,
comparisons that were skipped, suppressions that were not needed. A diagnostic keeps its cause; the
wording is a function of it.
-/

namespace ApiEvolution

/-- How much a diagnostic matters. -/
inductive Severity where
  | info
  | warning
deriving DecidableEq, Repr

def Severity.all : List Severity :=
  [.info, .warning]

def Severity.render : Severity → String
  | info => "INFO"
  | warning => "WARN"

/-- Which part of the work a diagnostic comes from. -/
inductive Category where
  | resolution
  | mapping
  | rule
  | suppression
  | general
deriving DecidableEq, Repr

def Category.all : List Category :=
  [.resolution, .mapping, .rule, .suppression, .general]

def Category.render : Category → String
  | resolution => "Resolution"
  | mapping => "Mapping"
  | rule => "Rule"
  | suppression => "Suppression"
  | general => "General"

/-- What was found. -/
inductive Finding where
  /-- no reference path leads to an assembly of this name -/
  | assemblyNotFound (name : AssemblyName)
  /-- the file a reference path leads to cannot be read -/
  | assemblyUnreadable (name : AssemblyName) (path : Path) (cause : LoadError)
  /-- a type reference without a definition -/
  | typeUnresolved (fullName : String)
  /-- a type reference whose definition was given up -/
  | definitionDropped (fullName : String)
  /-- an exported type without a definition -/
  | exportUnresolved (fullName : String)
  /-- different numbers of generic parameters -/
  | aritiesDiffer (owner : String) (left right : Nat)
  /-- a suppression that covers no difference -/
  | suppressionUnused (kind : String) (typeName message : Option String)
  /-- a remark in free words -/
  | remark (severity : Severity) (category : Category) (text : String)
deriving DecidableEq, Repr

namespace Finding

def severity : Finding → Severity
  | aritiesDiffer .. | suppressionUnused .. => .info
  | remark s _ _ => s
  | _ => .warning

def category : Finding → Category
  | assemblyNotFound .. | assemblyUnreadable .. | typeUnresolved .. | definitionDropped .. =>
    .resolution
  | exportUnresolved .. => .mapping
  | aritiesDiffer .. => .rule
  | suppressionUnused .. => .suppression
  | remark _ c _ => c

def message : Finding → String
  | assemblyNotFound name =>
    "Failed to resolve assembly reference '" ++ name.render ++ "': not found in reference paths"
  | assemblyUnreadable name path cause =>
    "Failed to load reference assembly '" ++ name.render ++ "' from '" ++ path.text ++ "': " ++
      cause.message
  | typeUnresolved t => "Failed to resolve type reference '" ++ t ++ "'"
  | definitionDropped t =>
    "Type reference '" ++ t ++ "' is bound to a definition that was dropped"
  | exportUnresolved t => "Failed to resolve exported type: " ++ t
  | aritiesDiffer owner left right =>
    "Skipped generic constraint comparison of '" ++ owner ++ "': " ++ Text.Decimal.render left ++
      " generic parameters on left, " ++ Text.Decimal.render right ++ " on right"
  | suppressionUnused kind typeName message =>
    "Unused suppression: " ++ kind ++ " " ++ typeName.getD "<no type name>" ++ " " ++
      message.getD "<no message>"
  | remark _ _ text => text

end Finding

/-- A finding and the simple name of the assembly it was made in, where that matters. -/
structure Diagnostic where
  finding : Finding
  assembly : Option String := none
deriving DecidableEq, Repr

namespace Diagnostic

def severity (d : Diagnostic) : Severity := d.finding.severity
def category (d : Diagnostic) : Category := d.finding.category

/-- `[WARN] Category: message (assembly: Name)`. -/
def render (d : Diagnostic) : String :=
  "[" ++ d.severity.render ++ "] " ++ d.category.render ++ ": " ++ d.finding.message ++
    match d.assembly with
    | some name => " (assembly: " ++ name ++ ")"
    | none => ""

/-- How many of the diagnostics have this severity. -/
def countOf (s : Severity) (ds : List Diagnostic) : Nat :=
  (ds.filter (·.severity == s)).length

def ofCategory (c : Category) (ds : List Diagnostic) : List Diagnostic :=
  ds.filter (·.category == c)

/-- A heading with the counts, and one line for each diagnostic. -/
def summary (ds : List Diagnostic) : String :=
  "Diagnostics: " ++ Text.Decimal.render (countOf .warning ds) ++ " warning(s), " ++
    Text.Decimal.render (countOf .info ds) ++ " info(s)\n" ++
    String.join (ds.map fun d => "  " ++ d.render ++ "\n")

end Diagnostic

end ApiEvolution
