import ApiEvolution.Universe.Basic

/-!
# Resolution of type references

A nested reference is resolved through its declaring type. A top-level reference is resolved in the
assembly it names: by a definition there, or else by an exported type with the same namespace and
name, which is resolved in turn. At most `maxForwards` exported types are followed, and none that
points back at the assembly it stands in. A reference that is bound already is not resolved again.

How an assembly name leads to an assembly is a parameter, `AssemblyResolver`.
-/

namespace ApiEvolution

namespace Universe

/-- How many exported types are followed on the way from one reference to its definition. -/
def maxForwards : Nat := 16

/-- Finds the assembly of a given name. -/
abbrev AssemblyResolver := AssemblyName → UniverseM (Option Loaded)

/-- The definition a reference is bound to, as long as it is kept. -/
def bound? (u : Universe) : Binding → Option Definition
  | .resolved id _ => (u.definition? id).map fun t => ⟨id, t⟩
  | _ => none

/-- Looks a top-level type up in an assembly that was found; `follow` resolves the exported type. -/
def resolveInAssembly (follow : TypeRef → UniverseM (Option Definition)) (space name : String)
    (l : Loaded) : UniverseM (Option Definition) :=
  match l.assembly.find? space name with
  | some f => pure (some (l.definition f))
  | none =>
    match l.assembly.findExported? space name with
    | none => pure none
    | some forwarder =>
      if forwarder.assembly.agrees l.assembly.name true then
        pure none
      else
        follow forwarder

mutual

/-- Resolves a reference; `follow` resolves the exported type that is met, if any. -/
def resolveStep (resolve : AssemblyResolver) (follow : TypeRef → UniverseM (Option Definition)) :
    TypeRef → UniverseM (Option Definition)
  | .mk space name scope binding => do
    match (← get).bound? binding with
    | some d => pure (some d)
    | none => resolveScope resolve follow space name scope

def resolveScope (resolve : AssemblyResolver) (follow : TypeRef → UniverseM (Option Definition))
    (space name : String) : Scope → UniverseM (Option Definition)
  | .assembly a => do
    match ← resolve a with
    | some l => resolveInAssembly follow space name l
    | none => pure none
  | .nested declaring => do
    match ← resolveStep resolve follow declaring with
    | some d => pure (d.nested? space name)
    | none => pure none

end

/-- Resolves a reference if it is bound already, or by following fewer than `hops` exported
types. -/
def resolveWithin (resolve : AssemblyResolver) : Nat → TypeRef → UniverseM (Option Definition)
  | 0, t => do return (← get).bound? t.binding
  | hops + 1, t => resolveStep resolve (resolveWithin resolve hops) t

/-- Resolves a reference. -/
def resolveTypeBy (resolve : AssemblyResolver) (t : TypeRef) : UniverseM (Option Definition) :=
  resolveWithin resolve (maxForwards + 1) t

/-! ## Binding the references of an assembly -/

/-- Binds a reference that is unbound, or marks and reports it. -/
def bindReference (resolve : AssemblyResolver) (origin : AssemblyName) (t : TypeRef) :
    UniverseM TypeRef := do
  if t.isBound then
    pure t
  else
    match ← resolveTypeBy resolve t with
    | some d => pure (t.withBinding (.resolved d.id d.type.descriptor))
    | none =>
      modify (report ⟨.typeUnresolved t.fullName, some origin.name⟩)
      pure (t.withBinding .unresolved)

/-- Enters the binding of an exported type, where resolution can find it from now on. -/
def setExported (id : AssemblyId) (module position : Nat) (t : TypeRef) (u : Universe) : Universe :=
  u.update id fun a =>
    { a with
      modules := a.modules.modify module fun m => { m with exported := m.exported.set position t } }

/-- Binds exported types of a module from the given position on. -/
def bindExported (bind : TypeRef → UniverseM TypeRef) (id : AssemblyId) (module : Nat) :
    Nat → List TypeRef → UniverseM (List TypeRef)
  | _, [] => pure []
  | position, t :: rest => do
    let t ← bind t
    modify (setExported id module position t)
    return t :: (← bindExported bind id module (position + 1) rest)

/-- Binds the modules from the given number on: the types of each, then its exported types. -/
def bindModules (bind : TypeRef → UniverseM TypeRef) (id : AssemblyId) :
    Nat → List Module → UniverseM (List Module)
  | _, [] => pure []
  | module, m :: rest => do
    let types ← TypeDefinition.traverseAll bind m.types
    let exported ← bindExported bind id module 0 m.exported
    return { m with types, exported } :: (← bindModules bind id (module + 1) rest)

/-- Binds every reference of an assembly that was just taken in. -/
def bindAssembly (resolve : AssemblyResolver) (l : Loaded) : UniverseM Loaded := do
  let modules ← bindModules (bindReference resolve l.assembly.name) l.id 0 l.assembly.modules
  let assembly : Assembly := { l.assembly with modules }
  modify (update l.id fun _ => assembly)
  return ⟨l.id, assembly⟩

end Universe

end ApiEvolution
