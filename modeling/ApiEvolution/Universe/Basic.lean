import ApiEvolution.Diagnostic

/-!
# Universes

A `Universe` is the context in which the references of one build are resolved: the paths it may
read, what it has read so far, and which simple names it has been asked for. Simple names are
remembered in small letters, also those that nothing was found for, so each is looked up once.

An assembly is kept as long as it is remembered under a name or was asked for by its path (a
*primary* assembly). When a universe lets go of an assembly, every reference into it that is still
kept becomes a dangling one (`Universe.collect`).
-/

namespace ApiEvolution

/-- An assembly that was read. -/
structure Loaded where
  id : AssemblyId
  assembly : Assembly

/-- A definition and where it stands. -/
structure Definition where
  id : DefinitionId
  type : TypeDefinition

/-- The definition found at some place of an assembly. -/
def Loaded.definition (l : Loaded) (f : Found) : Definition :=
  ⟨⟨l.id, f.position⟩, f.type⟩

/-- The first nested type with this namespace and name. -/
def Definition.nested? (d : Definition) (space name : String) : Option Definition :=
  (Found.nested? ⟨d.id.position, d.type⟩ space name).map fun f =>
    ⟨⟨d.id.assembly, f.position⟩, f.type⟩

/-- A resolution context. -/
structure Universe where
  context : Nat
  referencePaths : List Path
  names : List (String × Option AssemblyId) := []
  assemblies : List Loaded := []
  primaries : List AssemblyId := []
  next : Nat := 0
  reads : List Path := []
  diagnostics : List Diagnostic := []

/-- A step of a universe. -/
abbrev UniverseM := StateM Universe

namespace Universe

/-! ## What is remembered -/

/-- The form in which a simple name is remembered. -/
def key (name : AssemblyName) : String :=
  Text.lower name.name

/-- What is remembered about a simple name: nothing, that it leads nowhere, or an assembly. -/
def remembered? (u : Universe) (key : String) : Option (Option AssemblyId) :=
  u.names.lookup key

/-- An assembly that is kept. -/
def assembly? (u : Universe) (id : AssemblyId) : Option Loaded :=
  u.assemblies.find? (·.id == id)

/-- A definition that is kept. -/
def definition? (u : Universe) (id : DefinitionId) : Option TypeDefinition :=
  (u.assembly? id.assembly).bind (·.assembly.definitionAt? id.position)

/-- The first reference path whose file name without extension is the simple name. -/
def referencePath? (u : Universe) (name : AssemblyName) : Option Path :=
  u.referencePaths.find? fun p => p.stem?.any (Text.sameLetters · name.name)

/-- The assemblies remembered under some name. -/
def loaded (u : Universe) : List Loaded :=
  u.names.filterMap fun entry => entry.2.bind u.assembly?

/-! ## Changes -/

def report (d : Diagnostic) (u : Universe) : Universe :=
  { u with diagnostics := u.diagnostics ++ [d] }

def noteRead (p : Path) (u : Universe) : Universe :=
  { u with reads := u.reads ++ [p] }

/-- Remembers what a simple name leads to, in place of what was remembered before. -/
def remember (key : String) (entry : Option AssemblyId) (u : Universe) : Universe :=
  { u with names := (key, entry) :: u.names.filter (·.1 != key) }

/-- Replaces a kept assembly. -/
def update (id : AssemblyId) (f : Assembly → Assembly) (u : Universe) : Universe :=
  { u with
    assemblies := u.assemblies.map fun l =>
      if l.id == id then { l with assembly := f l.assembly } else l }

/-- Takes an assembly in and remembers it under a simple name. -/
def takeIn (key : String) (a : Assembly) (u : Universe) : Loaded × Universe :=
  let id : AssemblyId := ⟨u.context, u.next⟩
  let l : Loaded := ⟨id, a⟩
  (l, { u with assemblies := u.assemblies ++ [l], next := u.next + 1 }.remember key (some id))

/-- The assembly is remembered under a name or was asked for by its path. -/
def keeps (u : Universe) (id : AssemblyId) : Bool :=
  u.primaries.contains id || u.names.any (·.2 == some id)

/-- Lets go of the assemblies that are no longer kept, and of the definitions in them. -/
def collect (u : Universe) : Universe :=
  { u with
    assemblies := (u.assemblies.filter (u.keeps ·.id)).map fun l =>
      { l with assembly := l.assembly.release fun d => u.keeps d.assembly } }

/-- Forgets all names: nothing but the primary assemblies is kept. -/
def close (u : Universe) : Universe :=
  { u with names := [] }.collect

end Universe

end ApiEvolution
