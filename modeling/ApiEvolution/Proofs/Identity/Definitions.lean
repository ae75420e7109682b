import ApiEvolution.Fingerprint

/-!
# Identity of definitions

Types are compared along their declaring types and along those of their definitions; what is handed
on along both is `Hereditary`. Two definitions are the same declaration if and only if their paths
are equal, whatever assemblies they are part of and whatever comparer is asked
(`Comparer.sameType_eq_of_definitionChain`).
-/

namespace ApiEvolution

/-! ## Scopes of types and of their definitions -/

/-- `P` holds of a type if `S` holds of its scope and of the scope of its definition, and `S` holds
inside a type of which `P` holds. -/
structure Hereditary (P : TypeRef → Prop) (S : Scope → Prop) : Prop where
  type : ∀ t, S t.scope → (∀ d, t.definition? = some d → S d.scope) → P t
  assembly : ∀ a, S (.assembly a)
  nested : ∀ d, P d → S (.nested d)

namespace Hereditary

variable {P : TypeRef → Prop} {S : Scope → Prop}

mutual

/-- What is hereditary holds of every type. -/
theorem all (h : Hereditary P S) : (t : TypeRef) → P t
  | .mk _ _ scope .definition =>
    h.type _ (allScopes h scope) fun d hd => by
      cases hd
      exact allScopes h scope
  | .mk _ _ scope (.resolved _ (.mk _ _ home _)) =>
    h.type _ (allScopes h scope) fun d hd => by
      cases hd
      exact allScopes h home
  | .mk _ _ scope .unbound => h.type _ (allScopes h scope) nofun
  | .mk _ _ scope .unresolved => h.type _ (allScopes h scope) nofun
  | .mk _ _ scope .dropped => h.type _ (allScopes h scope) nofun

theorem allScopes (h : Hereditary P S) : (s : Scope) → S s
  | .assembly a => h.assembly a
  | .nested d => h.nested d (all h d)

end

end Hereditary

/-! ## Chains of definitions -/

namespace TypeRef

theorem path_eq (t : TypeRef) : t.path = (t.space, t.name) :: t.scope.path := by
  cases t
  rfl

/-- A chain of definitions begins with one, and goes on in its scope. -/
theorem of_isDefinitionChain {t : TypeRef} (h : t.isDefinitionChain) :
    t.definition? = some t ∧ t.scope.isDefinitionChain := by
  obtain ⟨space, name, scope, binding⟩ := t
  cases binding with
  | definition => exact ⟨rfl, h⟩
  | _ => cases h

end TypeRef

namespace Comparer

variable {c : Comparer}

/-- The two ways of being the same: by the scopes, or by where the definitions are declared. -/
theorem sameType_iff {t u : TypeRef} : c.sameType t u ↔ t.space = u.space ∧ t.name = u.name ∧
    (c.sameScope t.scope u.scope ∨ ∃ d e, t.definition? = some d ∧ u.definition? = some e ∧
      c.sameDeclaring d.scope e.scope) := by
  simp only [sameType_eq, Bool.and_eq_true, Bool.or_eq_true, beq_iff_eq, Option.any_eq_true,
    and_assoc, exists_and_left]

/-- Agreeing scopes are scopes of the same declaring type, if there is one. -/
theorem sameDeclaring_of_sameScope {s s' : Scope} (h : c.sameScope s s') :
    c.sameDeclaring s s' := by
  cases s <;> cases s' <;> first | exact h | rfl

/-- For definitions it does not matter whether the scopes agree. -/
theorem sameType_eq_of_definition {t u : TypeRef} (ht : t.definition? = some t)
    (hu : u.definition? = some u) : c.sameType t u =
      ((t.space, t.name) == (u.space, u.name) && c.sameDeclaring t.scope u.scope) := by
  have hscope : (c.sameScope t.scope u.scope || c.sameDeclaring t.scope u.scope) =
      c.sameDeclaring t.scope u.scope := by
    cases hs : c.sameScope t.scope u.scope with
    | false => rfl
    | true => rw [sameDeclaring_of_sameScope hs]; rfl
  rw [sameType_eq, ht, hu]
  simp only [Option.any_some, hscope]
  rfl

mutual

theorem sameType_eq_of_definitionChain (c : Comparer) : {t u : TypeRef} → t.isDefinitionChain →
    u.isDefinitionChain → c.sameType t u = (t.path == u.path)
  | .mk space name scope binding, u, ht, hu => by
    obtain ⟨htd, hts⟩ := TypeRef.of_isDefinitionChain ht
    obtain ⟨hud, hus⟩ := TypeRef.of_isDefinitionChain hu
    rw [sameType_eq_of_definition htd hud, TypeRef.path_eq u, TypeRef.path,
      sameDeclaring_eq_of_definitionChain c hts hus]
    rfl

theorem sameDeclaring_eq_of_definitionChain (c : Comparer) : {s s' : Scope} → s.isDefinitionChain →
    s'.isDefinitionChain → c.sameDeclaring s s' = (s.path == s'.path)
  | .assembly _, .assembly _, _, _ => rfl
  | .assembly _, .nested d, _, _ => by
    rw [sameDeclaring, Scope.path, Scope.path, TypeRef.path_eq]
    · rfl
    · nofun
    · nofun
  | .nested d, .assembly _, _, _ => by
    rw [sameDeclaring, Scope.path, Scope.path, TypeRef.path_eq]
    · rfl
    · nofun
    · nofun
  | .nested d, .nested e, hs, hs' => sameType_eq_of_definitionChain c (t := d) (u := e) hs hs'

end

end Comparer

/-- Types of one path have one fingerprint. -/
theorem TypeRef.fingerprint_eq_of_path {t u : TypeRef} (h : t.path = u.path) :
    t.fingerprint = u.fingerprint := by
  rw [fingerprint, h, fingerprint]

end ApiEvolution
