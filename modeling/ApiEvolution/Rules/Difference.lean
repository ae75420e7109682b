import ApiEvolution.Surface.Generic
import ApiEvolution.Text.Pieces

/-!
# Differences

An incompatible change of a declaration. A difference keeps what it is about; kind, tag and message
are functions of it. Tag and message are what a reviewed difference is recognised by, so they are
fixed for good.
-/

namespace ApiEvolution

/-- What happened to a property of a declaration. -/
inductive Change where
  | added
  | removed
  | changed
deriving DecidableEq, Repr

namespace Change

def all : List Change := [added, removed, changed]

def render : Change → String
  | added => "Added"
  | removed => "Removed"
  | changed => "Changed"

def ofText? (text : String) : Option Change :=
  all.find? (·.render == text)

/-- Rank in the order of changes. -/
def rank : Change → Nat
  | added => 0
  | removed => 1
  | changed => 2

theorem ofText?_render (c : Change) : ofText? c.render = some c := by
  cases c <;> decide

theorem mem_all (c : Change) : c ∈ all := by
  cases c <;> decide

end Change

/-- An incompatible change. -/
inductive Difference where
  /-- a type that could be derived from no longer can -/
  | sealing (typeName : String) (declared : Bool)
  /-- a constraint of a generic parameter was added or removed -/
  | constraint (change : Change) (owner parameter text : String)
  /-- the variance of a generic parameter was changed or removed -/
  | variance (change : Change) (owner parameter : String) (before after : Variance)
deriving DecidableEq, Repr

namespace Difference

def change : Difference → Change
  | sealing .. => .changed
  | constraint c .. => c
  | variance c .. => c

/-- Name of the kind of difference. -/
def kind : Difference → String
  | sealing .. => "CannotSealType"
  | constraint .. => "CannotChangeGenericConstraint"
  | variance .. => "CannotChangeGenericVariance"

/-- What the kind is recognised by in a baseline. -/
def tag (d : Difference) : String :=
  "ArApiCompat.ApiCompatibility.Comparing.Rules." ++ d.kind ++ "Difference"

/-- The sentence that says what changed. -/
def message : Difference → String
  | sealing typeName true =>
    "Type '" ++ typeName ++ "' has the sealed modifier on right but not on left"
  | sealing typeName false =>
    "Type '" ++ typeName ++
      "' is sealed because it has no visible constructor on right but it does on left"
  | constraint change owner parameter text =>
    "Cannot " ++ (if change = .added then "add" else "remove") ++ " constraint '" ++ text ++
      "' on type parameter '" ++ parameter ++ "' of '" ++ owner ++ "'"
  | variance _ owner parameter before after =>
    "Cannot change variance of type parameter '" ++ parameter ++ "' on '" ++ owner ++ "' from " ++
      before.render ++ " to " ++ after.render

/-- `Kind (Change): message`. -/
def render (d : Difference) : String :=
  d.kind ++ " (" ++ d.change.render ++ "): " ++ d.message

end Difference

end ApiEvolution
