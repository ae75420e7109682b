import ApiEvolution.Surface.Assembly

/-!
# Identity across builds

When a declaration of one build and a declaration of another are the same declaration. Types are the
same if namespace and name are equal and either their scopes agree, or both have definitions and the
declaring types of these are the same; the second way makes a type that was moved and forwarded the
same as the one that stayed. Members are the same if name and declaring type are, and what tells
overloads apart agrees.
-/

namespace ApiEvolution

/-- How assembly names are compared. -/
structure Comparer where
  versionAgnostic : Bool
deriving DecidableEq, Repr

namespace Comparer

/-- Versions of assemblies are left out of account. -/
def agnostic : Comparer := ⟨true⟩

/-- Versions of assemblies count. -/
def strict : Comparer := ⟨false⟩

def sameAssembly (c : Comparer) (a b : AssemblyName) : Bool :=
  a.agrees b c.versionAgnostic

/-! ## Types -/

mutual

/-- The two types are the same declaration. -/
def sameType (c : Comparer) : TypeRef → TypeRef → Bool
  | .mk space name scope .definition, r =>
    space == r.space && name == r.name &&
      (c.sameScope scope r.scope || r.definition?.any fun d => c.sameDeclaring scope d.scope)
  | .mk space name scope (.resolved _ (.mk _ _ home _)), r =>
    space == r.space && name == r.name &&
      (c.sameScope scope r.scope || r.definition?.any fun d => c.sameDeclaring home d.scope)
  | .mk space name scope _, r => space == r.space && name == r.name && c.sameScope scope r.scope

/-- The scopes name one assembly or one declaring type. -/
def sameScope (c : Comparer) : Scope → Scope → Bool
  | .assembly a, .assembly b => c.sameAssembly a b
  | .nested d, .nested e => c.sameType d e
  | _, _ => false

/-- Both definitions stand at the top level of some assembly, or in the same declaring type. -/
def sameDeclaring (c : Comparer) : Scope → Scope → Bool
  | .assembly _, .assembly _ => true
  | .nested d, .nested e => c.sameType d e
  | _, _ => false

end

/-! ## Signatures -/

mutual

/-- The two signatures denote the same type. -/
def sameSignature (c : Comparer) : Signature → Signature → Bool
  | .named t, .named u => c.sameType t u
  | .generic t ts, .generic u us => c.sameType t u && c.sameSignatures ts us
  | .typeParameter i, .typeParameter j => i == j
  | .methodParameter i, .methodParameter j => i == j
  | .array s, .array t => c.sameSignature s t
  | .byReference s, .byReference t => c.sameSignature s t
  | .pointer s, .pointer t => c.sameSignature s t
  | _, _ => false

/-- The two lists have the same length and the same types at each place. -/
def sameSignatures (c : Comparer) : List Signature → List Signature → Bool
  | [], [] => true
  | s :: ss, t :: ts => c.sameSignature s t && c.sameSignatures ss ts
  | _, _ => false

end

/-! ## Members -/

/-- The types of two values agree, as far as both are known. -/
def sameValueType (c : Comparer) : Option Signature → Option Signature → Bool
  | some s, some t => c.sameSignature s t
  | _, _ => true

/-- What tells apart members of one name agrees: arity and parameters of a method, the type of a
property or event; a field needs nothing but its name. Results of methods do not count. -/
def sameKind (c : Comparer) : MemberKind → MemberKind → Bool
  | .method m, .method n =>
    m.genericParameters.length == n.genericParameters.length &&
      c.sameSignatures m.parameters n.parameters
  | .field _, .field _ => true
  | .property s, .property t => c.sameValueType s t
  | .event s, .event t => c.sameValueType s t
  | _, _ => false

/-- The two members are the same declaration. -/
def sameMember (c : Comparer) (m n : Member) : Bool :=
  m.name == n.name && c.sameType m.declaringType n.declaringType && c.sameKind m.kind n.kind

/-! ## The general case of `sameType` -/

theorem sameType_eq (c : Comparer) (t u : TypeRef) :
    c.sameType t u = (t.space == u.space && t.name == u.name &&
      (c.sameScope t.scope u.scope ||
        t.definition?.any fun d =>
          u.definition?.any fun e => c.sameDeclaring d.scope e.scope)) := by
  obtain ⟨space, name, scope, binding⟩ := t
  rcases binding with _ | _ | _ | _ | ⟨id, ⟨s, n, home, b⟩⟩ <;>
    simp [sameType, TypeRef.space, TypeRef.name, TypeRef.scope, TypeRef.binding,
      TypeRef.definition?, Option.any]

end Comparer

end ApiEvolution
