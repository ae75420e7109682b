import ApiEvolution.Surface.Member

/-!
# Type definitions

A type with its flags, generic parameters, members and nested types. The nested types make it a
tree: `preorder` lists it recursively, `walk` with an explicit stack, and `descend` follows the
positions of a `DefinitionId`.
-/

namespace ApiEvolution

/-- A defined type. -/
structure TypeDefinition where
  descriptor : TypeRef
  flags : UInt32
  genericParameters : List GenericParameter
  members : List Member
  nestedTypes : List TypeDefinition

namespace TypeDefinition

/-! ## Flags -/

def visibilityMask : UInt32 := 0x7
def notPublicFlag : UInt32 := 0x0
def publicFlag : UInt32 := 0x1
def nestedPublicFlag : UInt32 := 0x2
def nestedPrivateFlag : UInt32 := 0x3
def nestedFamilyFlag : UInt32 := 0x4
def nestedAssemblyFlag : UInt32 := 0x5
def nestedFamilyOrAssemblyFlag : UInt32 := 0x7
def interfaceFlag : UInt32 := 0x20
def abstractFlag : UInt32 := 0x80
def sealedFlag : UInt32 := 0x100

def visibility (t : TypeDefinition) : UInt32 :=
  t.flags &&& visibilityMask

def isInterface (t : TypeDefinition) : Bool :=
  hasFlag t.flags interfaceFlag

def isAbstract (t : TypeDefinition) : Bool :=
  hasFlag t.flags abstractFlag

/-- Declared sealed. -/
def isSealed (t : TypeDefinition) : Bool :=
  hasFlag t.flags sealedFlag

def isNested (t : TypeDefinition) : Bool :=
  t.descriptor.declaring?.isSome

/-- Code outside the assembly can name the type, if only from a type derived from its declaring
type; the visibility of the declaring type is not asked for. -/
def isVisible (t : TypeDefinition) : Bool :=
  if t.isNested then
    t.visibility == nestedPublicFlag || t.visibility == nestedFamilyFlag ||
      t.visibility == nestedFamilyOrAssemblyFlag
  else
    t.visibility == publicFlag

/-- A derived type outside the assembly has a constructor to call. -/
def hasVisibleConstructor (t : TypeDefinition) : Bool :=
  t.members.any fun m => m.isInstanceConstructor && m.isVisible

/-- No type outside the assembly can be derived from it. -/
def isEffectivelySealed (t : TypeDefinition) : Bool :=
  t.isSealed || !t.hasVisibleConstructor

def fullName (t : TypeDefinition) : String :=
  t.descriptor.fullName

def membersNamed (t : TypeDefinition) (name : String) : List Member :=
  t.members.filter (·.name == name)

/-! ## The tree of nested types -/

mutual

/-- The type and all types nested in it. -/
def preorder : TypeDefinition → List TypeDefinition
  | ⟨d, f, g, m, nested⟩ => ⟨d, f, g, m, nested⟩ :: preorderOf nested

def preorderOf : List TypeDefinition → List TypeDefinition
  | [] => []
  | t :: rest => t.preorder ++ preorderOf rest

end

mutual

/-- Number of types in the tree. -/
def count : TypeDefinition → Nat
  | ⟨_, _, _, _, nested⟩ => countOf nested + 1

def countOf : List TypeDefinition → Nat
  | [] => 0
  | t :: rest => t.count + countOf rest

end

theorem countOf_append (ts us : List TypeDefinition) :
    countOf (ts ++ us) = countOf ts + countOf us := by
  induction ts with
  | nil => simp [countOf]
  | cons t ts ih => simp [countOf, ih, Nat.add_assoc]

theorem count_eq (t : TypeDefinition) : t.count = countOf t.nestedTypes + 1 := by
  cases t; rfl

/-- Takes a type from the stack, lists it, and puts its nested types on the stack. -/
def walk : List TypeDefinition → List TypeDefinition
  | [] => []
  | t :: stack => t :: walk (t.nestedTypes ++ stack)
termination_by stack => countOf stack
decreasing_by
  rw [countOf_append, countOf, count_eq]
  omega

/-- The definition that the positions lead to from `t`. -/
def descend (t : TypeDefinition) : List Nat → Option TypeDefinition
  | [] => some t
  | i :: rest =>
    match t.nestedTypes[i]? with
    | some u => u.descend rest
    | none => none

/-- The type goes by this namespace and name. -/
def isNamed (space name : String) (t : TypeDefinition) : Bool :=
  t.descriptor.space == space && t.descriptor.name == name

/-- The first type of a list with the given namespace and name, and its position. -/
def first? (space name : String) (types : List TypeDefinition) : Option (Nat × TypeDefinition) :=
  (types.zipIdx.find? fun t => t.1.isNamed space name).map fun t => (t.2, t.1)

/-! ## Type references -/

mutual

/-- The type references of constraints and member signatures in reading order: generic parameters,
members, nested types. -/
def refs : TypeDefinition → List TypeRef
  | ⟨_, _, g, m, nested⟩ => GenericParameter.refsOf g ++ m.flatMap Member.refs ++ refsOf nested

def refsOf : List TypeDefinition → List TypeRef
  | [] => []
  | t :: rest => t.refs ++ refsOf rest

end

mutual

/-- Replaces every type reference, descriptors and declaring types included. -/
def map (f : TypeRef → TypeRef) : TypeDefinition → TypeDefinition
  | ⟨d, flags, g, m, nested⟩ => ⟨f d, flags, g.map (·.map f), m.map (·.map f), mapAll f nested⟩

def mapAll (f : TypeRef → TypeRef) : List TypeDefinition → List TypeDefinition
  | [] => []
  | t :: rest => t.map f :: mapAll f rest

end

mutual

/-- Replaces the references that `refs` lists, with effects in that order. -/
def traverse {μ : Type → Type} [Monad μ] (f : TypeRef → μ TypeRef) :
    TypeDefinition → μ TypeDefinition
  | ⟨d, flags, g, m, nested⟩ => do
    let g ← g.mapM (·.traverse f)
    let m ← m.mapM (·.traverse f)
    return ⟨d, flags, g, m, ← traverseAll f nested⟩

def traverseAll {μ : Type → Type} [Monad μ] (f : TypeRef → μ TypeRef) :
    List TypeDefinition → μ (List TypeDefinition)
  | [] => pure []
  | t :: rest => do
    let t ← t.traverse f
    return t :: (← traverseAll f rest)

end

/-- A copy without bindings. -/
def detached (t : TypeDefinition) : TypeDefinition :=
  t.map TypeRef.detached

/-- Gives up the definitions that are no longer kept. -/
def release (kept : DefinitionId → Bool) (t : TypeDefinition) : TypeDefinition :=
  t.map (TypeRef.release kept)

/-! ## Laws -/

theorem preorderOf_append (ts us : List TypeDefinition) :
    preorderOf (ts ++ us) = preorderOf ts ++ preorderOf us := by
  induction ts with
  | nil => rfl
  | cons t ts ih => simp [preorderOf, ih]

theorem preorder_eq (t : TypeDefinition) : t.preorder = t :: preorderOf t.nestedTypes := by
  cases t; rfl

end TypeDefinition

end ApiEvolution
