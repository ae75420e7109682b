import ApiEvolution.Surface.AssemblyName

/-!
# Type references

A `TypeRef` says where a type is to be found: namespace, name, and a scope, which is an assembly or,
for a nested type, the declaring type. It is either the descriptor of a definition or a reference
with a binding, which says whether the definition has been looked for and found.

The descriptor of the definition that was found is part of the binding, so everything that can be
asked about a reference is a recursion on it.
-/

namespace ApiEvolution

/-- One reading of an assembly: the resolution context that asked for it and a running number. -/
structure AssemblyId where
  context : Nat
  number : Nat
deriving DecidableEq, Repr

/-- One definition: the assembly it is part of and the positions that lead to it, first among the
top-level types of the assembly, then among the nested types of each type passed. -/
structure DefinitionId where
  assembly : AssemblyId
  position : List Nat
deriving DecidableEq, Repr

mutual

/-- Namespace, name, scope, and whether it describes a definition or refers to one. -/
inductive TypeRef where
  | mk (space : String) (name : String) (scope : Scope) (binding : Binding)

/-- Where a type is declared. -/
inductive Scope where
  /-- at the top level of an assembly -/
  | assembly (name : AssemblyName)
  /-- inside another type -/
  | nested (declaring : TypeRef)

/-- What is known about the definition. -/
inductive Binding where
  /-- it is the descriptor of a definition itself -/
  | definition
  /-- a reference nobody has looked up -/
  | unbound
  /-- a reference that was looked up in vain -/
  | unresolved
  /-- a reference whose definition was found and has been given up since -/
  | dropped
  /-- a reference to the definition `id`, described by `descriptor` -/
  | resolved (id : DefinitionId) (descriptor : TypeRef)

end

namespace TypeRef

def space : TypeRef → String
  | mk s _ _ _ => s

def name : TypeRef → String
  | mk _ n _ _ => n

def scope : TypeRef → Scope
  | mk _ _ s _ => s

def binding : TypeRef → Binding
  | mk _ _ _ b => b

/-- An unbound reference to a top-level type. -/
def topLevel (assembly : AssemblyName) (space name : String) : TypeRef :=
  mk space name (.assembly assembly) .unbound

/-- The same place with another binding. -/
def withBinding (t : TypeRef) (b : Binding) : TypeRef :=
  mk t.space t.name t.scope b

def isDefinition (t : TypeRef) : Bool :=
  match t.binding with
  | .definition => true
  | _ => false

/-- The definition has been looked for, or the descriptor is one. -/
def isBound (t : TypeRef) : Bool :=
  match t.binding with
  | .unbound => false
  | _ => true

/-- The definition was found and has been given up since. -/
def isDangling (t : TypeRef) : Bool :=
  match t.binding with
  | .dropped => true
  | _ => false

/-- The definition that a reference is bound to. -/
def target? (t : TypeRef) : Option DefinitionId :=
  match t.binding with
  | .resolved id _ => some id
  | _ => none

/-- The descriptor of the definition: its own for a definition, the one found for a reference. -/
def definition? (t : TypeRef) : Option TypeRef :=
  match t.binding with
  | .definition => some t
  | .resolved _ d => some d
  | _ => none

/-- The declaring type of a nested type. -/
def declaring? (t : TypeRef) : Option TypeRef :=
  match t.scope with
  | .assembly _ => none
  | .nested d => some d

end TypeRef

mutual

/-- The assembly at the end of the chain of declaring types. -/
def TypeRef.assembly : TypeRef → AssemblyName
  | .mk _ _ scope _ => scope.assemblyName

def Scope.assemblyName : Scope → AssemblyName
  | .assembly name => name
  | .nested declaring => declaring.assembly

end

mutual

/-- `Namespace.Name` for a top-level type, `Declaring+Name` for a nested one. -/
def TypeRef.fullName : TypeRef → String
  | .mk space name scope _ => scope.qualify space name

def Scope.qualify (space name : String) : Scope → String
  | .assembly _ => if space.isEmpty then name else space ++ "." ++ name
  | .nested declaring => declaring.fullName ++ "+" ++ name

end

mutual

/-- Namespace and name of the type and of all its declaring types, the innermost first. -/
def TypeRef.path : TypeRef → List (String × String)
  | .mk space name scope _ => (space, name) :: scope.path

def Scope.path : Scope → List (String × String)
  | .assembly _ => []
  | .nested declaring => declaring.path

end

/-- Forgets what is known about the definition. -/
def Binding.detached : Binding → Binding
  | .definition => .definition
  | _ => .unbound

mutual

/-- A copy without bindings, at every level of the scope. -/
def TypeRef.detached : TypeRef → TypeRef
  | .mk space name scope binding => .mk space name scope.detached binding.detached

def Scope.detached : Scope → Scope
  | .assembly name => .assembly name
  | .nested declaring => .nested declaring.detached

end

/-- An unbound reference to the described type. -/
def TypeRef.toReference (t : TypeRef) : TypeRef :=
  .mk t.space t.name t.scope.detached .unbound

/-- Gives up the definitions that are no longer kept. -/
def Binding.release (kept : DefinitionId → Bool) : Binding → Binding
  | .resolved id descriptor => if kept id then .resolved id descriptor else .dropped
  | binding => binding

mutual

/-- A reference to a definition that is no longer kept becomes a dangling one. -/
def TypeRef.release (kept : DefinitionId → Bool) : TypeRef → TypeRef
  | .mk space name scope binding => .mk space name (scope.release kept) (binding.release kept)

def Scope.release (kept : DefinitionId → Bool) : Scope → Scope
  | .assembly name => .assembly name
  | .nested declaring => .nested (declaring.release kept)

end

mutual

/-- The type and all its declaring types describe definitions. -/
def TypeRef.isDefinitionChain : TypeRef → Bool
  | .mk _ _ scope .definition => scope.isDefinitionChain
  | _ => false

def Scope.isDefinitionChain : Scope → Bool
  | .assembly _ => true
  | .nested declaring => declaring.isDefinitionChain

end

end ApiEvolution
