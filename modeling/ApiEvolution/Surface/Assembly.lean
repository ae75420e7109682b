import ApiEvolution.Surface.TypeDefinition

/-!
# Assemblies

An assembly has a name and modules; a module holds top-level types and exported types, which forward
to where a type has moved. `locate` looks a reference up within one assembly.
-/

namespace ApiEvolution

/-- Top-level types of a module, and the types it forwards elsewhere. -/
structure Module where
  name : String
  types : List TypeDefinition
  exported : List TypeRef

namespace Module

def map (f : TypeRef → TypeRef) (m : Module) : Module :=
  { m with types := TypeDefinition.mapAll f m.types, exported := m.exported.map f }

end Module

/-- A named list of modules. -/
structure Assembly where
  name : AssemblyName
  modules : List Module

/-- A definition and the positions that lead to it. -/
structure Found where
  position : List Nat
  type : TypeDefinition

namespace Found

/-- The first nested type with this namespace and name. -/
def nested? (f : Found) (space name : String) : Option Found :=
  (TypeDefinition.first? space name f.type.nestedTypes).map fun t => ⟨f.position ++ [t.1], t.2⟩

end Found

namespace Assembly

/-- The top-level types of all modules. -/
def topLevel (a : Assembly) : List TypeDefinition :=
  a.modules.flatMap (·.types)

/-- The exported types of all modules. -/
def exported (a : Assembly) : List TypeRef :=
  a.modules.flatMap (·.exported)

/-- Every definition, each before the types nested in it. -/
def allTypes (a : Assembly) : List TypeDefinition :=
  TypeDefinition.walk a.topLevel

/-- The first top-level type with this namespace and name. -/
def find? (a : Assembly) (space name : String) : Option Found :=
  (TypeDefinition.first? space name a.topLevel).map fun t => ⟨[t.1], t.2⟩

/-- The first exported type with this namespace and name. -/
def findExported? (a : Assembly) (space name : String) : Option TypeRef :=
  a.exported.find? fun t => t.space == space && t.name == name

/-- The definition at the given positions. -/
def definitionAt? (a : Assembly) : List Nat → Option TypeDefinition
  | [] => none
  | i :: rest => a.topLevel[i]?.bind (·.descend rest)

mutual

/-- Looks a reference up among the definitions of the assembly, whose own version is not compared
with the one asked for. -/
def locate (a : Assembly) : TypeRef → Option Found
  | .mk space name scope _ => a.locateIn space name scope

def locateIn (a : Assembly) (space name : String) : Scope → Option Found
  | .assembly asked => if asked.agrees a.name true then a.find? space name else none
  | .nested declaring =>
    match a.locate declaring with
    | some f => f.nested? space name
    | none => none

end

/-- The type references of all types in reading order. -/
def typeRefs (a : Assembly) : List TypeRef :=
  TypeDefinition.refsOf a.topLevel

/-- The type references of all types, then the exported types. -/
def references (a : Assembly) : List TypeRef :=
  a.typeRefs ++ a.exported

/-- Replaces every type reference. -/
def map (f : TypeRef → TypeRef) (a : Assembly) : Assembly :=
  { a with modules := a.modules.map (·.map f) }

/-- A copy without bindings. -/
def detached (a : Assembly) : Assembly :=
  a.map TypeRef.detached

/-- Gives up the definitions that are no longer kept. -/
def release (kept : DefinitionId → Bool) (a : Assembly) : Assembly :=
  a.map (TypeRef.release kept)

end Assembly

end ApiEvolution
