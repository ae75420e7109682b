import ApiEvolution.Surface.Signature

/-!
# Generic parameters

A parameter of a generic type or method carries its variance and three special constraints as flag
bits, and a list of constraint types.
-/

namespace ApiEvolution

/-- Some bit of `mask` is set in `flags`. -/
def hasFlag (flags mask : UInt32) : Bool :=
  flags &&& mask != 0

/-! ## Variance -/

/-- How instances of a generic type vary with the argument. -/
inductive Variance where
  | invariant
  | covariant
  | contravariant
deriving DecidableEq, Repr

namespace Variance

def all : List Variance := [invariant, covariant, contravariant]

/-- The two bits that hold the variance. -/
def mask : UInt32 := 0x3

def toFlags : Variance → UInt32
  | invariant => 0
  | covariant => 1
  | contravariant => 2

/-- Both bits together mean nothing and are read as invariance. -/
def ofFlags (flags : UInt32) : Variance :=
  if flags &&& mask == 1 then covariant
  else if flags &&& mask == 2 then contravariant
  else invariant

def render : Variance → String
  | invariant => "invariant"
  | covariant => "covariant ('out')"
  | contravariant => "contravariant ('in')"

theorem mem_all (v : Variance) : v ∈ all := by
  cases v <;> decide

theorem ofFlags_toFlags (v : Variance) : ofFlags v.toFlags = v := by
  cases v <;> decide

end Variance

/-! ## Parameters -/

/-- A generic parameter of a type or a method. -/
structure GenericParameter where
  name : String
  index : Nat
  flags : UInt32
  constraints : List Signature

namespace GenericParameter

def referenceTypeFlag : UInt32 := 0x4
def valueTypeFlag : UInt32 := 0x8
def constructorFlag : UInt32 := 0x10

def variance (p : GenericParameter) : Variance :=
  Variance.ofFlags p.flags

/-- The constraint `class`. -/
def requiresReferenceType (p : GenericParameter) : Bool :=
  hasFlag p.flags referenceTypeFlag

/-- The constraint `struct`. -/
def requiresValueType (p : GenericParameter) : Bool :=
  hasFlag p.flags valueTypeFlag

/-- The constraint `new()`. -/
def requiresConstructor (p : GenericParameter) : Bool :=
  hasFlag p.flags constructorFlag

/-- The type references of the constraints in reading order. -/
def refs (p : GenericParameter) : List TypeRef :=
  Signature.refsOf p.constraints

def map (f : TypeRef → TypeRef) (p : GenericParameter) : GenericParameter :=
  { p with constraints := Signature.mapAll f p.constraints }

def traverse {m : Type → Type} [Monad m] (f : TypeRef → m TypeRef) (p : GenericParameter) :
    m GenericParameter := do
  return { p with constraints := ← Signature.traverseAll f p.constraints }

/-- The type references of a parameter list in reading order. -/
def refsOf (ps : List GenericParameter) : List TypeRef :=
  ps.flatMap refs

theorem refs_map (f : TypeRef → TypeRef) (p : GenericParameter) :
    (p.map f).refs = Signature.refsOf (Signature.mapAll f p.constraints) := rfl

end GenericParameter

end ApiEvolution
