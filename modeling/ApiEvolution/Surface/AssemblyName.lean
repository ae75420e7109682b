import ApiEvolution.Surface.Version
import ApiEvolution.Text.Ascii

/-!
# Assembly names

An assembly is named by a simple name, a version and an optional culture, written
`Name, Version=1.0.0.0, Culture=neutral`. `agrees` is the equality under which two builds of one
library have the same name: letter case of the simple name never counts, the version only if asked.
-/

namespace ApiEvolution

/-- Full name of an assembly; no culture means the neutral one. -/
structure AssemblyName where
  name : String
  version : Version
  culture : Option String
deriving DecidableEq, Repr

/-- Why a text is no assembly name. -/
inductive AssemblyNameError where
  /-- nothing but blanks before the first comma -/
  | emptyName
  /-- a version component that cannot be read -/
  | version (cause : VersionError)
deriving DecidableEq, Repr

def AssemblyNameError.message : AssemblyNameError → String
  | emptyName => "Assembly name cannot be empty"
  | version cause => cause.message

namespace AssemblyName

/-- The two names stand for one assembly; `agnostic` leaves the version out of account. -/
def agrees (a b : AssemblyName) (agnostic : Bool) : Bool :=
  Text.sameLetters a.name b.name && a.culture == b.culture && (agnostic || a.version == b.version)

/-- The written form. -/
def render (a : AssemblyName) : String :=
  a.name ++ ", Version=" ++ a.version.render ++ ", Culture=" ++ a.culture.getD "neutral"

/-- What stands behind `key` if `text` begins with it. -/
def valueOf? (key : String) (text : List Char) : Option (List Char) :=
  if key.toList.isPrefixOf text then some (text.drop key.length) else none

/-- Takes one component behind the simple name into account; unknown components say nothing, and
the culture `neutral` is the absence of one. -/
def component (a : AssemblyName) (text : List Char) : Except AssemblyNameError AssemblyName :=
  match valueOf? "Version=" text with
  | some value =>
    match Version.parse value with
    | .ok v => .ok { a with version := v }
    | .error e => .error (.version e)
  | none =>
    match valueOf? "Culture=" text with
    | some value =>
      if Text.sameLetters (String.ofList value) "neutral" then
        .ok a
      else
        .ok { a with culture := some (String.ofList value) }
    | none => .ok a

/-- Takes components into account from the left, so that a later one overrides. -/
def components (a : AssemblyName) : List (List Char) → Except AssemblyNameError AssemblyName
  | [] => .ok a
  | text :: rest =>
    match a.component text with
    | .ok b => b.components rest
    | .error e => .error e

/-- Reads a simple name and its components, separated by commas and padded with blanks. -/
def parse (text : String) : Except AssemblyNameError AssemblyName :=
  match (Text.pieces ',' text.toList).map Text.trim with
  | [] | [] :: _ => .error .emptyName
  | name :: rest => (AssemblyName.mk (String.ofList name) .zero none).components rest

end AssemblyName

end ApiEvolution
