import ApiEvolution.Surface.Generic

/-!
# Members

Methods, fields, properties and events of a type, with their accessibility and written form.
-/

namespace ApiEvolution

/-! ## Accessibility -/

/-- Who may use a member. -/
inductive Access where
  | compilerControlled
  | privateScope
  | familyAndAssembly
  | assembly
  | family
  | familyOrAssembly
  | publicScope
deriving DecidableEq, Repr

namespace Access

def all : List Access :=
  [compilerControlled, privateScope, familyAndAssembly, assembly, family, familyOrAssembly,
    publicScope]

def render : Access → String
  | compilerControlled => "CompilerControlled"
  | privateScope => "Private"
  | familyAndAssembly => "FamAndAssem"
  | assembly => "Assembly"
  | family => "Family"
  | familyOrAssembly => "FamOrAssem"
  | publicScope => "Public"

/-- The accessibility in the lowest three bits. -/
def ofFlags (flags : UInt32) : Access :=
  match (flags &&& 0x7).toNat with
  | 1 => privateScope
  | 2 => familyAndAssembly
  | 3 => assembly
  | 4 => family
  | 5 => familyOrAssembly
  | 6 => publicScope
  | _ => compilerControlled

/-- Code outside the assembly can use the member, if only from a derived type. -/
def isVisible : Access → Bool
  | publicScope | family | familyOrAssembly => true
  | _ => false

theorem mem_all (a : Access) : a ∈ all := by
  cases a <;> decide

end Access

/-! ## Members -/

/-- What is particular to a method; no result type means that nothing is returned. -/
structure Method where
  attributes : UInt32
  genericParameters : List GenericParameter
  parameters : List Signature
  returnType : Option Signature

namespace Method

def staticFlag : UInt32 := 0x10
def finalFlag : UInt32 := 0x20
def virtualFlag : UInt32 := 0x40
def hideBySigFlag : UInt32 := 0x80
def newSlotFlag : UInt32 := 0x100
def abstractFlag : UInt32 := 0x400
def specialNameFlag : UInt32 := 0x800

/-- The attributes that have names, in the order of their bits. -/
def attributeNames : List (UInt32 × String) :=
  [(staticFlag, "STATIC"), (finalFlag, "FINAL"), (virtualFlag, "VIRTUAL"),
    (hideBySigFlag, "HIDE_BY_SIG"), (newSlotFlag, "NEW_SLOT"), (abstractFlag, "ABSTRACT"),
    (specialNameFlag, "SPECIAL_NAME")]

/-- The names of the attributes that are set. -/
def setAttributes (m : Method) : List String :=
  (attributeNames.filter fun a => hasFlag m.attributes a.1).map (·.2)

def refs (m : Method) : List TypeRef :=
  GenericParameter.refsOf m.genericParameters ++ Signature.refsOf m.parameters ++
    Signature.refsOf m.returnType.toList

def map (f : TypeRef → TypeRef) (m : Method) : Method :=
  { m with
    genericParameters := m.genericParameters.map (·.map f)
    parameters := Signature.mapAll f m.parameters
    returnType := m.returnType.map (·.map f) }

def traverse {μ : Type → Type} [Monad μ] (f : TypeRef → μ TypeRef) (m : Method) : μ Method := do
  let genericParameters ← m.genericParameters.mapM (·.traverse f)
  let parameters ← Signature.traverseAll f m.parameters
  let returnType ← m.returnType.mapM (·.traverse f)
  return { m with genericParameters, parameters, returnType }

end Method

/-- The kind of a member, with the type of its value where one is known. -/
inductive MemberKind where
  | method (method : Method)
  | field (type : Option Signature)
  | property (type : Option Signature)
  | event (type : Option Signature)

namespace MemberKind

def render : MemberKind → String
  | method _ => "method"
  | field _ => "field"
  | property _ => "property"
  | event _ => "event"

def refs : MemberKind → List TypeRef
  | method m => m.refs
  | field t | property t | event t => Signature.refsOf t.toList

def map (f : TypeRef → TypeRef) : MemberKind → MemberKind
  | method m => method (m.map f)
  | field t => field (t.map (·.map f))
  | property t => property (t.map (·.map f))
  | event t => event (t.map (·.map f))

def traverse {μ : Type → Type} [Monad μ] (f : TypeRef → μ TypeRef) : MemberKind → μ MemberKind
  | method m => do return method (← m.traverse f)
  | field t => do return field (← t.mapM (·.traverse f))
  | property t => do return property (← t.mapM (·.traverse f))
  | event t => do return event (← t.mapM (·.traverse f))

end MemberKind

/-- A member of a type. -/
structure Member where
  name : String
  declaringType : TypeRef
  access : Access
  kind : MemberKind

namespace Member

/-- The name of every constructor. -/
def constructorName : String := ".ctor"

def method? (m : Member) : Option Method :=
  match m.kind with
  | .method method => some method
  | _ => none

/-- A method with the attribute `mask`. -/
def hasAttribute (m : Member) (mask : UInt32) : Bool :=
  m.method?.any fun method => hasFlag method.attributes mask

def isVirtual (m : Member) : Bool :=
  m.hasAttribute Method.virtualFlag

def isStatic (m : Member) : Bool :=
  m.hasAttribute Method.staticFlag

/-- A method named as constructors are that is not static. -/
def isInstanceConstructor (m : Member) : Bool :=
  m.name == constructorName && m.method?.isSome && !m.isStatic

def isVisible (m : Member) : Bool :=
  m.access.isVisible

def refs (m : Member) : List TypeRef :=
  m.kind.refs

def map (f : TypeRef → TypeRef) (m : Member) : Member :=
  { m with declaringType := f m.declaringType, kind := m.kind.map f }

/-- Replaces the type references of the signature, with effects in reading order. -/
def traverse {μ : Type → Type} [Monad μ] (f : TypeRef → μ TypeRef) (m : Member) : μ Member := do
  return { m with kind := ← m.kind.traverse f }

/-- The name with the generic parameters of a method behind it. -/
def renderGenerics : List GenericParameter → String
  | [] => ""
  | ps => "<" ++ Text.joined "," (ps.map (·.name)) ++ ">"

/-- `Result Declaring::Name<T>(Parameters)` for a method, `Type Declaring::Name` for the others. -/
def fullName (m : Member) : String :=
  let owned := m.declaringType.fullName ++ "::" ++ m.name
  let valued (type : Option Signature) : String :=
    match type with
    | some t => t.fullName ++ " " ++ owned
    | none => owned
  match m.kind with
  | .method method =>
    let result := (method.returnType.map Signature.fullName).getD "System.Void"
    let parameters := Text.joined "," (method.parameters.map Signature.fullName)
    result ++ " " ++ owned ++ renderGenerics method.genericParameters ++ "(" ++ parameters ++ ")"
  | .field type | .property type | .event type => valued type

end Member

end ApiEvolution
