import ApiEvolution.Surface.Assembly

/-!
# Declarations

Descriptions of assemblies that do not exist yet. A declaration says what a type is called and what
it holds; `build` gives every type its scope, every member its declaring type and every generic
parameter its index, so that a built assembly is consistent by construction.
-/

namespace ApiEvolution

/-! ## Generic parameters -/

/-- A generic parameter before it has its index. -/
structure GenericDeclaration where
  name : String
  flags : UInt32 := 0
  constraints : List Signature := []

namespace GenericDeclaration

def variance (v : Variance) (g : GenericDeclaration) : GenericDeclaration :=
  { g with flags := (g.flags &&& ~~~Variance.mask) ||| v.toFlags }

def setFlag (flag : UInt32) (g : GenericDeclaration) : GenericDeclaration :=
  { g with flags := g.flags ||| flag }

def constraint (s : Signature) (g : GenericDeclaration) : GenericDeclaration :=
  { g with constraints := g.constraints ++ [s] }

def build (index : Nat) (g : GenericDeclaration) : GenericParameter :=
  ⟨g.name, index, g.flags, g.constraints⟩

/-- Parameters are numbered from zero. -/
def buildAll (gs : List GenericDeclaration) : List GenericParameter :=
  gs.zipIdx.map fun g => g.1.build g.2

end GenericDeclaration

/-! ## Members -/

/-- A method before it has its declaring type. -/
structure MethodDeclaration where
  name : String
  access : Access := .publicScope
  attributes : UInt32 := Method.hideBySigFlag
  generics : List GenericDeclaration := []
  parameters : List Signature := []
  returnType : Option Signature := none

/-- A member before it has its declaring type. -/
inductive MemberDeclaration where
  | method (m : MethodDeclaration)
  | field (name : String) (access : Access) (type : Option Signature)
  | property (name : String) (access : Access) (type : Option Signature)
  | event (name : String) (access : Access) (type : Option Signature)

namespace MemberDeclaration

/-- A constructor with the given accessibility. -/
def constructor (access : Access) : MemberDeclaration :=
  .method
    { name := Member.constructorName
      access
      attributes := Method.hideBySigFlag ||| Method.specialNameFlag }

def build (declaringType : TypeRef) : MemberDeclaration → Member
  | method m =>
    ⟨m.name, declaringType, m.access,
      .method ⟨m.attributes, GenericDeclaration.buildAll m.generics, m.parameters, m.returnType⟩⟩
  | field name access type => ⟨name, declaringType, access, .field type⟩
  | property name access type => ⟨name, declaringType, access, .property type⟩
  | event name access type => ⟨name, declaringType, access, .event type⟩

end MemberDeclaration

/-! ## Types -/

/-- A type before it has its scope. -/
structure TypeDeclaration where
  space : String
  name : String
  flags : UInt32
  generics : List GenericDeclaration
  members : List MemberDeclaration
  nested : List TypeDeclaration

namespace TypeDeclaration

/-- A type without members that is visible in its assembly only. -/
def hidden (name : String) : TypeDeclaration :=
  ⟨"", name, TypeDefinition.notPublicFlag, [], [], []⟩

/-- A public class without members. -/
def publicClass (space name : String) : TypeDeclaration :=
  { hidden name with space, flags := TypeDefinition.publicFlag }

/-- A public interface without members. -/
def publicInterface (space name : String) : TypeDeclaration :=
  { hidden name with
    space
    flags := TypeDefinition.publicFlag ||| TypeDefinition.interfaceFlag |||
      TypeDefinition.abstractFlag }

/-- Replaces the visibility and no other flag. -/
def visibility (v : UInt32) (t : TypeDeclaration) : TypeDeclaration :=
  { t with flags := (t.flags &&& ~~~TypeDefinition.visibilityMask) ||| v }

def setFlag (flag : UInt32) (t : TypeDeclaration) : TypeDeclaration :=
  { t with flags := t.flags ||| flag }

def generic (g : GenericDeclaration) (t : TypeDeclaration) : TypeDeclaration :=
  { t with generics := t.generics ++ [g] }

def member (m : MemberDeclaration) (t : TypeDeclaration) : TypeDeclaration :=
  { t with members := t.members ++ [m] }

def nest (t u : TypeDeclaration) : TypeDeclaration :=
  { t with nested := t.nested ++ [u] }

mutual

/-- The definition in the given scope; nested types are scoped in its descriptor. -/
def build (scope : Scope) : TypeDeclaration → TypeDefinition
  | ⟨space, name, flags, generics, members, nested⟩ =>
    let descriptor := TypeRef.mk space name scope .definition
    ⟨descriptor, flags, GenericDeclaration.buildAll generics,
      members.map (MemberDeclaration.build descriptor), buildAll (.nested descriptor) nested⟩

def buildAll (scope : Scope) : List TypeDeclaration → List TypeDefinition
  | [] => []
  | t :: rest => t.build scope :: buildAll scope rest

end

end TypeDeclaration

/-! ## Assemblies -/

/-- A module before its types have their scopes. -/
structure ModuleDeclaration where
  name : String
  types : List TypeDeclaration
  exported : List TypeRef

/-- An assembly before its types have their scopes. -/
structure AssemblyDeclaration where
  name : AssemblyName
  modules : List ModuleDeclaration

namespace AssemblyDeclaration

/-- A forwarder says in which assembly a top-level type is found now. -/
def forwarder (space name : String) (target : AssemblyName) : TypeRef :=
  .topLevel target space name

/-- The one module of an assembly that is declared as a whole. -/
def mainModule (name : AssemblyName) (types : List TypeDeclaration) (exported : List TypeRef) :
    ModuleDeclaration :=
  ⟨name.name ++ ".dll", types, exported⟩

def build (a : AssemblyDeclaration) : Assembly :=
  ⟨a.name, a.modules.map fun m =>
    ⟨m.name, TypeDeclaration.buildAll (.assembly a.name) m.types, m.exported⟩⟩

end AssemblyDeclaration

end ApiEvolution
