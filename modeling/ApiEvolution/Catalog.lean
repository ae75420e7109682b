import ApiEvolution.Path
import ApiEvolution.Surface.Assembly

/-!
# Catalogs of assemblies

A `Reader` turns a path into an assembly or says why it cannot. A `Catalog` is a reader made of
assemblies that are entered under paths; what it hands out carries no bindings.
-/

namespace ApiEvolution

/-- Why an assembly could not be read. -/
structure LoadError where
  path : Path
  reason : String
deriving DecidableEq, Repr

def LoadError.message (e : LoadError) : String :=
  "Failed to load assembly '" ++ e.path.text ++ "': " ++ e.reason

/-- Source of assemblies. -/
abbrev Reader := Path → Except LoadError Assembly

/-- Assemblies by path, each path once. -/
structure Catalog where
  entries : List (Path × Assembly)

namespace Catalog

def empty : Catalog := ⟨[]⟩

/-- The assembly entered under a path. -/
def find? (c : Catalog) (p : Path) : Option Assembly :=
  (c.entries.find? fun e => e.1.agrees p).map (·.2)

def contains (c : Catalog) (p : Path) : Bool :=
  (c.find? p).isSome

def size (c : Catalog) : Nat :=
  c.entries.length

/-- Enters a copy without bindings; an entry under the same path is replaced. -/
def insert (c : Catalog) (p : Path) (a : Assembly) : Catalog :=
  if c.contains p then
    ⟨c.entries.map fun e => if e.1.agrees p then (e.1, a.detached) else e⟩
  else
    ⟨c.entries ++ [(p, a.detached)]⟩

def ofList (entries : List (Path × Assembly)) : Catalog :=
  entries.foldl (fun c e => c.insert e.1 e.2) empty

/-- Reads what is entered under the path. -/
def reader (c : Catalog) : Reader := fun p =>
  match c.find? p with
  | some a => .ok a
  | none => .error ⟨p, "no assembly registered for this path"⟩

end Catalog

end ApiEvolution
