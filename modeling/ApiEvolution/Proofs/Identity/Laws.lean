import ApiEvolution.Proofs.Surface.Likeness

/-!
# Laws of identity

For every comparer, a declaration is the same as itself and as its copy without bindings, and it
does not matter which of two declarations is named first; what is the same if versions count is the
same if they do not (`Comparer.identity_laws`). These laws are handed on from scopes to types
(`Comparer.hereditary_comm`, `Comparer.hereditary_imp`). Signatures are the same if they are alike,
with the same types at the same places (`Comparer.sameSignature_iff`), so their laws are those of
types, and the laws of members are those of their declaring types and signatures.
-/

namespace ApiEvolution

namespace Comparer

variable (c : Comparer) {c' : Comparer}

/-! ## Types -/

theorem sameAssembly_self (a : AssemblyName) : c.sameAssembly a a := by
  simp [sameAssembly, AssemblyName.agrees, Text.sameLetters]

theorem sameAssembly_comm (a b : AssemblyName) : c.sameAssembly a b = c.sameAssembly b a := by
  simp only [sameAssembly, AssemblyName.agrees, Text.sameLetters_comm a.name,
    Bool.beq_comm (a := a.culture), Bool.beq_comm (a := a.version)]

theorem agnostic_sameAssembly {a b : AssemblyName} (h : strict.sameAssembly a b) :
    agnostic.sameAssembly a b := by
  simp only [sameAssembly, AssemblyName.agrees, Bool.and_eq_true] at h ⊢
  exact ⟨h.1, rfl⟩

mutual

/-- Types that differ in nothing but bindings are the same. -/
theorem sameType_of_detached_eq : {t u : TypeRef} → t.detached = u.detached → c.sameType t u
  | .mk space name scope _, .mk space' name' scope' _, h => by
    obtain ⟨rfl, rfl, hscope, -⟩ := TypeRef.mk.inj h
    exact sameType_iff.2 ⟨rfl, rfl, .inl (sameScope_of_detached_eq hscope)⟩

theorem sameScope_of_detached_eq : {s s' : Scope} → s.detached = s'.detached → c.sameScope s s'
  | .assembly a, .assembly b, h => by
    cases h
    exact c.sameAssembly_self a
  | .nested _, .nested _, h => sameType_of_detached_eq (Scope.nested.inj h)

end

theorem sameType_self (t : TypeRef) : c.sameType t t :=
  c.sameType_of_detached_eq rfl

theorem sameType_detached (t : TypeRef) : c.sameType t t.detached :=
  c.sameType_of_detached_eq t.detached_detached.symm

theorem hereditary_comm : Hereditary (fun t => ∀ u, c.sameType t u = c.sameType u t)
    fun s => ∀ s', c.sameScope s s' = c.sameScope s' s ∧
      c.sameDeclaring s s' = c.sameDeclaring s' s where
  type t hscope hhome u := by
    rw [Bool.eq_iff_iff, sameType_iff, sameType_iff, eq_comm (a := t.space), eq_comm (a := t.name),
      (hscope u.scope).1]
    refine and_congr_right' (and_congr_right' (or_congr_right ⟨?_, ?_⟩))
    · rintro ⟨d, e, hd, he, hsame⟩
      exact ⟨e, d, he, hd, (hhome d hd e.scope).2 ▸ hsame⟩
    · rintro ⟨e, d, he, hd, hsame⟩
      exact ⟨d, e, hd, he, (hhome d hd e.scope).2 ▸ hsame⟩
  assembly a s' := by
    cases s' with
    | assembly b => exact ⟨c.sameAssembly_comm a b, rfl⟩
    | nested e => exact ⟨rfl, rfl⟩
  nested d hd s' := by
    cases s' with
    | assembly b => exact ⟨rfl, rfl⟩
    | nested e => exact ⟨hd e, hd e⟩

theorem sameType_comm (t u : TypeRef) : c.sameType t u = c.sameType u t :=
  c.hereditary_comm.all t u

variable {c}

theorem hereditary_imp (h : ∀ a b, c.sameAssembly a b → c'.sameAssembly a b) :
    Hereditary (fun t => ∀ u, c.sameType t u → c'.sameType t u)
      fun s => ∀ s', (c.sameScope s s' → c'.sameScope s s') ∧
        (c.sameDeclaring s s' → c'.sameDeclaring s s') where
  type t hscope hhome u hsame := by
    obtain ⟨hspace, hname, hroute⟩ := sameType_iff.1 hsame
    refine sameType_iff.2 ⟨hspace, hname, hroute.imp (hscope u.scope).1 ?_⟩
    rintro ⟨d, e, hd, he, hdeclaring⟩
    exact ⟨d, e, hd, he, (hhome d hd e.scope).2 hdeclaring⟩
  assembly a s' := by
    cases s' with
    | assembly b => exact ⟨h a b, id⟩
    | nested e => exact ⟨nofun, nofun⟩
  nested d hd s' := by
    cases s' with
    | assembly b => exact ⟨nofun, nofun⟩
    | nested e => exact ⟨hd e, hd e⟩

/-- The more names of assemblies agree, the more types are the same. -/
theorem sameType_imp (h : ∀ a b, c.sameAssembly a b → c'.sameAssembly a b) {t u : TypeRef}
    (hsame : c.sameType t u) : c'.sameType t u :=
  (hereditary_imp h).all t u hsame

/-! ## Signatures -/

variable (c)

mutual

theorem alike_of_sameSignature : (s s' : Signature) → c.sameSignature s s' →
    s.Alike (fun t u => c.sameType t u) s'
  | .named _, .named _, h => .named h
  | .generic _ ss, .generic _ ss', h => by
    obtain ⟨htype, harguments⟩ := Bool.and_eq_true_iff.1 h
    exact .generic htype (alikeAll_of_sameSignatures ss ss' harguments)
  | .typeParameter i, .typeParameter j, h => by
    cases beq_iff_eq.1 h
    exact .typeParameter i
  | .methodParameter i, .methodParameter j, h => by
    cases beq_iff_eq.1 h
    exact .methodParameter i
  | .array s, .array s', h => .array (alike_of_sameSignature s s' h)
  | .byReference s, .byReference s', h => .byReference (alike_of_sameSignature s s' h)
  | .pointer s, .pointer s', h => .pointer (alike_of_sameSignature s s' h)

theorem alikeAll_of_sameSignatures : (ss ss' : List Signature) → c.sameSignatures ss ss' →
    Signature.AlikeAll (fun t u => c.sameType t u) ss ss'
  | [], [], _ => .nil
  | s :: ss, s' :: ss', h => by
    obtain ⟨hhead, hrest⟩ := Bool.and_eq_true_iff.1 h
    exact .cons (alike_of_sameSignature s s' hhead) (alikeAll_of_sameSignatures ss ss' hrest)

end

mutual

theorem sameSignature_of_alike : (s s' : Signature) → s.Alike (fun t u => c.sameType t u) s' →
    c.sameSignature s s'
  | .named _, .named _, .named h => h
  | .generic _ ss, .generic _ ss', .generic h hs =>
    Bool.and_eq_true_iff.2 ⟨h, sameSignatures_of_alikeAll ss ss' hs⟩
  | .typeParameter i, .typeParameter _, .typeParameter _ => beq_self_eq_true i
  | .methodParameter i, .methodParameter _, .methodParameter _ => beq_self_eq_true i
  | .array s, .array s', .array h => sameSignature_of_alike s s' h
  | .byReference s, .byReference s', .byReference h => sameSignature_of_alike s s' h
  | .pointer s, .pointer s', .pointer h => sameSignature_of_alike s s' h

theorem sameSignatures_of_alikeAll : (ss ss' : List Signature) →
    Signature.AlikeAll (fun t u => c.sameType t u) ss ss' → c.sameSignatures ss ss'
  | [], [], .nil => rfl
  | s :: ss, s' :: ss', .cons h hs =>
    Bool.and_eq_true_iff.2 ⟨sameSignature_of_alike s s' h, sameSignatures_of_alikeAll ss ss' hs⟩

end

/-- Signatures are the same if they have the same types at the same places. -/
theorem sameSignature_iff (s s' : Signature) :
    c.sameSignature s s' ↔ s.Alike (fun t u => c.sameType t u) s' :=
  ⟨c.alike_of_sameSignature s s', c.sameSignature_of_alike s s'⟩

theorem sameSignatures_iff (ss ss' : List Signature) :
    c.sameSignatures ss ss' ↔ Signature.AlikeAll (fun t u => c.sameType t u) ss ss' :=
  ⟨c.alikeAll_of_sameSignatures ss ss', c.sameSignatures_of_alikeAll ss ss'⟩

theorem sameSignature_comm (s s' : Signature) : c.sameSignature s s' = c.sameSignature s' s := by
  rw [Bool.eq_iff_iff, sameSignature_iff, sameSignature_iff]
  exact ⟨.symm fun t u h => c.sameType_comm t u ▸ h, .symm fun t u h => c.sameType_comm t u ▸ h⟩

theorem sameSignatures_comm (ss ss' : List Signature) :
    c.sameSignatures ss ss' = c.sameSignatures ss' ss := by
  rw [Bool.eq_iff_iff, sameSignatures_iff, sameSignatures_iff]
  exact ⟨.symm fun t u h => c.sameType_comm t u ▸ h, .symm fun t u h => c.sameType_comm t u ▸ h⟩

section

variable {c} (h : ∀ a b, c.sameAssembly a b → c'.sameAssembly a b)
include h

theorem sameSignature_imp {s s' : Signature} (hsame : c.sameSignature s s') :
    c'.sameSignature s s' := by
  rw [sameSignature_iff] at hsame ⊢
  exact hsame.imp fun _ _ => sameType_imp h

theorem sameSignatures_imp {ss ss' : List Signature} (hsame : c.sameSignatures ss ss') :
    c'.sameSignatures ss ss' := by
  rw [sameSignatures_iff] at hsame ⊢
  exact hsame.imp fun _ _ => sameType_imp h

end

section

variable {c} {f : TypeRef → TypeRef} (hf : ∀ t, c.sameType t (f t))
include hf

theorem sameSignature_map (s : Signature) : c.sameSignature s (s.map f) :=
  (c.sameSignature_iff _ _).2 (s.alike_map hf)

theorem sameSignatures_map (ss : List Signature) :
    c.sameSignatures ss (Signature.mapAll f ss) :=
  (c.sameSignatures_iff _ _).2 (Signature.alikeAll_map hf ss)

end

theorem sameSignature_self (s : Signature) : c.sameSignature s s := by
  have hmap := sameSignature_map (f := id) c.sameType_self s
  rwa [Signature.map_id] at hmap

/-! ## Members -/

theorem sameValueType_comm (s s' : Option Signature) :
    c.sameValueType s s' = c.sameValueType s' s := by
  cases s with
  | none => cases s' <;> rfl
  | some s =>
    cases s' with
    | none => rfl
    | some s' => exact c.sameSignature_comm s s'

theorem sameKind_comm (k l : MemberKind) : c.sameKind k l = c.sameKind l k := by
  cases k with
  | method m =>
    cases l with
    | method n =>
      rw [sameKind, sameKind, Bool.beq_comm, c.sameSignatures_comm]
    | _ => rfl
  | field s => cases l <;> rfl
  | property s =>
    cases l with
    | property s' => exact c.sameValueType_comm s s'
    | _ => rfl
  | event s =>
    cases l with
    | event s' => exact c.sameValueType_comm s s'
    | _ => rfl

theorem sameMember_comm (m n : Member) : c.sameMember m n = c.sameMember n m := by
  rw [sameMember, sameMember, Bool.beq_comm, c.sameType_comm, c.sameKind_comm]

section

variable {c} (h : ∀ a b, c.sameAssembly a b → c'.sameAssembly a b)
include h

theorem sameValueType_imp {s s' : Option Signature} (hsame : c.sameValueType s s') :
    c'.sameValueType s s' := by
  cases s with
  | none => rfl
  | some s =>
    cases s' with
    | none => rfl
    | some s' => exact sameSignature_imp h hsame

theorem sameKind_imp : {k l : MemberKind} → c.sameKind k l → c'.sameKind k l
  | .method _, .method _, hsame => by
    obtain ⟨harity, hparameters⟩ := Bool.and_eq_true_iff.1 hsame
    exact Bool.and_eq_true_iff.2 ⟨harity, sameSignatures_imp h hparameters⟩
  | .field _, .field _, _ => rfl
  | .property _, .property _, hsame => sameValueType_imp h hsame
  | .event _, .event _, hsame => sameValueType_imp h hsame

theorem sameMember_imp {m n : Member} (hsame : c.sameMember m n) : c'.sameMember m n := by
  simp only [sameMember, Bool.and_eq_true] at hsame ⊢
  exact ⟨⟨hsame.1.1, sameType_imp h hsame.1.2⟩, sameKind_imp h hsame.2⟩

end

section

variable {c} {f : TypeRef → TypeRef} (hf : ∀ t, c.sameType t (f t))
include hf

theorem sameValueType_map (s : Option Signature) :
    c.sameValueType s (s.map (Signature.map f)) := by
  cases s with
  | none => rfl
  | some s => exact sameSignature_map hf s

theorem sameKind_map (k : MemberKind) : c.sameKind k (k.map f) := by
  cases k with
  | method m =>
    simp only [MemberKind.map, Method.map, sameKind, List.length_map, beq_self_eq_true,
      sameSignatures_map hf, Bool.and_self]
  | field s => rfl
  | property s => exact sameValueType_map hf s
  | event s => exact sameValueType_map hf s

theorem sameMember_map (m : Member) : c.sameMember m (m.map f) := by
  simp only [sameMember, Member.map, beq_self_eq_true, hf, sameKind_map hf, Bool.and_self]

end

theorem sameMember_self (m : Member) : c.sameMember m m := by
  have hmap := sameMember_map (f := id) c.sameType_self m
  rwa [Member.map_id] at hmap

end Comparer

/-! ## The laws -/

/-- Laws of a notion of being the same, one for each comparer: everything is the same as itself and
as its copy without bindings, the order of the two does not matter, and what is the same if versions
count is the same if they do not. -/
structure IdentityLaws {α : Type} (same : Comparer → α → α → Bool) (detach : α → α) : Prop where
  self : ∀ c a, same c a a
  copy : ∀ c a, same c a (detach a)
  comm : ∀ c a b, same c a b ↔ same c b a
  agnostic : ∀ a b, same .strict a b → same .agnostic a b

/-- Types, signatures and members, whatever they are bound to, are the same as themselves and as
their copies without bindings, whichever is named first, and the same without versions if they are
with versions. -/
theorem Comparer.identity_laws :
    IdentityLaws sameType TypeRef.detached ∧ IdentityLaws sameSignature Signature.detached ∧
      IdentityLaws sameMember (Member.map TypeRef.detached) := by
  have hagnostic : ∀ a b, strict.sameAssembly a b → agnostic.sameAssembly a b :=
    fun _ _ => agnostic_sameAssembly
  refine ⟨⟨sameType_self, sameType_detached, fun c t u => ?_, fun t u => sameType_imp hagnostic⟩,
    ⟨sameSignature_self, fun c s => ?_, fun c s s' => ?_, fun s s' => sameSignature_imp hagnostic⟩,
    ⟨sameMember_self, fun c m => ?_, fun c m n => ?_, fun m n => sameMember_imp hagnostic⟩⟩
  · rw [c.sameType_comm]
  · exact sameSignature_map c.sameType_detached s
  · rw [c.sameSignature_comm]
  · exact sameMember_map c.sameType_detached m
  · rw [c.sameMember_comm]

/-- A method of two versions of a type: its parameter is bound to a definition that was moved on one
side, and to the one that stayed on the other side. -/
theorem Comparer.identity_laws_moved :
    let place (name : String) : Scope := .assembly ⟨name, ⟨1, 0, 0, 0⟩, none⟩
    let bound (named home : String) : TypeRef := .mk "Lib" "Moved" (place named)
      (.resolved ⟨⟨0, 0⟩, [0]⟩ (.mk "Lib" "Moved" (place home) .definition))
    let run (version : Version) (t : TypeRef) : Member :=
      ⟨"Run", .mk "Lib" "Widget" (.assembly ⟨"Lib", version, none⟩) .definition, .publicScope,
        .method ⟨0, [], [.array (.named t)], none⟩⟩
    let before := run ⟨1, 0, 0, 0⟩ (bound "Lib" "Lib")
    let behind := run ⟨2, 0, 0, 0⟩ (bound "Facade" "Core")
    strict.sameMember before behind ∧ agnostic.sameMember behind before ∧
      agnostic.sameMember behind (behind.map TypeRef.detached) ∧
      agnostic.sameMember before (behind.map TypeRef.detached) = false := by
  intro place bound run before behind
  obtain ⟨-, -, hmember⟩ := identity_laws
  have hstrict : strict.sameMember before behind := by decide
  have hagnostic := hmember.agnostic before behind hstrict
  exact ⟨hstrict, (hmember.comm agnostic before behind).1 hagnostic, hmember.copy agnostic behind,
    by decide⟩

end ApiEvolution
