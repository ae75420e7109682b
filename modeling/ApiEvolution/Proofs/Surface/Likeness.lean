import Mathlib.Data.List.Forall2
import ApiEvolution.Proofs.Surface.Detached
import ApiEvolution.Proofs.Surface.Traversal

/-!
# Surfaces that are alike

Two surfaces are `Alike` if they have the same constructors, names, numbers, flags and lists
everywhere, and if the references at each place stand in a relation, those of descriptors, declaring
types and exported types included. A reference that `Forgets` what it is bound to keeps its name,
and at each level of its scope a definition stays one, while anything else is unbound. These
relations are defined place by place, without the copying they are there to judge: the copy of an
assembly without bindings is the one assembly that is like it and forgets
(`Assembly.detached_exact`).
-/

namespace ApiEvolution

/-! ## Forgetting -/

mutual

/-- The second reference is the first one without what it is bound to, at every level of its
scope. -/
inductive TypeRef.Forgets : TypeRef → TypeRef → Prop
  | definition {space name : String} {s s' : Scope} : Scope.Forgets s s' →
      TypeRef.Forgets (.mk space name s .definition) (.mk space name s' .definition)
  | reference {space name : String} {s s' : Scope} {b : Binding} : Scope.Forgets s s' →
      b ≠ .definition → TypeRef.Forgets (.mk space name s b) (.mk space name s' .unbound)

inductive Scope.Forgets : Scope → Scope → Prop
  | assembly (name : AssemblyName) : Scope.Forgets (.assembly name) (.assembly name)
  | nested {d d' : TypeRef} : TypeRef.Forgets d d' → Scope.Forgets (.nested d) (.nested d')

end

mutual

theorem TypeRef.Forgets.eq_detached : {t u : TypeRef} → t.Forgets u → u = t.detached
  | .mk _ _ _ .definition, _, .definition h => by
    rw [TypeRef.detached, h.eq_detached, Binding.detached]
  | .mk _ _ _ b, _, .reference h hb => by
    have hbinding : b.detached = .unbound := by
      cases b with
      | definition => exact absurd rfl hb
      | _ => rfl
    rw [TypeRef.detached, h.eq_detached, hbinding]

theorem Scope.Forgets.eq_detached : {s s' : Scope} → s.Forgets s' → s' = s.detached
  | _, _, .assembly _ => rfl
  | _, _, .nested h => congrArg Scope.nested h.eq_detached

end

mutual

theorem TypeRef.forgets_detached : (t : TypeRef) → t.Forgets t.detached
  | .mk _ _ scope .definition => .definition (Scope.forgets_detached scope)
  | .mk _ _ scope .unbound => .reference (Scope.forgets_detached scope) nofun
  | .mk _ _ scope .unresolved => .reference (Scope.forgets_detached scope) nofun
  | .mk _ _ scope .dropped => .reference (Scope.forgets_detached scope) nofun
  | .mk _ _ scope (.resolved _ _) => .reference (Scope.forgets_detached scope) nofun

theorem Scope.forgets_detached : (s : Scope) → s.Forgets s.detached
  | .assembly name => .assembly name
  | .nested d => .nested (TypeRef.forgets_detached d)

end

theorem TypeRef.forgets_iff (t u : TypeRef) : t.Forgets u ↔ u = t.detached :=
  ⟨Forgets.eq_detached, fun h => h ▸ t.forgets_detached⟩

/-! ## Likeness -/

mutual

/-- The two signatures differ in their references only, which are related. -/
inductive Signature.Alike (R : TypeRef → TypeRef → Prop) : Signature → Signature → Prop
  | named {t u : TypeRef} : R t u → Signature.Alike R (.named t) (.named u)
  | generic {t u : TypeRef} {ss ss' : List Signature} : R t u → Signature.AlikeAll R ss ss' →
      Signature.Alike R (.generic t ss) (.generic u ss')
  | typeParameter (i : Nat) : Signature.Alike R (.typeParameter i) (.typeParameter i)
  | methodParameter (i : Nat) : Signature.Alike R (.methodParameter i) (.methodParameter i)
  | array {s s' : Signature} : Signature.Alike R s s' → Signature.Alike R (.array s) (.array s')
  | byReference {s s' : Signature} : Signature.Alike R s s' →
      Signature.Alike R (.byReference s) (.byReference s')
  | pointer {s s' : Signature} : Signature.Alike R s s' →
      Signature.Alike R (.pointer s) (.pointer s')

inductive Signature.AlikeAll (R : TypeRef → TypeRef → Prop) :
    List Signature → List Signature → Prop
  | nil : Signature.AlikeAll R [] []
  | cons {s s' : Signature} {ss ss' : List Signature} : Signature.Alike R s s' →
      Signature.AlikeAll R ss ss' → Signature.AlikeAll R (s :: ss) (s' :: ss')

end

namespace Signature

variable {R S : TypeRef → TypeRef → Prop}

mutual

theorem Alike.imp (h : ∀ t u, R t u → S t u) : {s s' : Signature} → s.Alike R s' → s.Alike S s'
  | _, _, .named htype => .named (h _ _ htype)
  | _, _, .generic htype hs => .generic (h _ _ htype) (AlikeAll.imp h hs)
  | _, _, .typeParameter i => .typeParameter i
  | _, _, .methodParameter i => .methodParameter i
  | _, _, .array hs => .array (Alike.imp h hs)
  | _, _, .byReference hs => .byReference (Alike.imp h hs)
  | _, _, .pointer hs => .pointer (Alike.imp h hs)

theorem AlikeAll.imp (h : ∀ t u, R t u → S t u) : {ss ss' : List Signature} →
    AlikeAll R ss ss' → AlikeAll S ss ss'
  | _, _, .nil => .nil
  | _, _, .cons hs hss => .cons (Alike.imp h hs) (AlikeAll.imp h hss)

end

mutual

/-- Likeness may be read from the other side, if the relation between references may. -/
theorem Alike.symm (h : ∀ t u, R t u → S u t) : {s s' : Signature} → s.Alike R s' → s'.Alike S s
  | _, _, .named htype => .named (h _ _ htype)
  | _, _, .generic htype hs => .generic (h _ _ htype) (AlikeAll.symm h hs)
  | _, _, .typeParameter i => .typeParameter i
  | _, _, .methodParameter i => .methodParameter i
  | _, _, .array hs => .array (Alike.symm h hs)
  | _, _, .byReference hs => .byReference (Alike.symm h hs)
  | _, _, .pointer hs => .pointer (Alike.symm h hs)

theorem AlikeAll.symm (h : ∀ t u, R t u → S u t) : {ss ss' : List Signature} →
    AlikeAll R ss ss' → AlikeAll S ss' ss
  | _, _, .nil => .nil
  | _, _, .cons hs hss => .cons (Alike.symm h hs) (AlikeAll.symm h hss)

end

end Signature

variable (R : TypeRef → TypeRef → Prop)

structure GenericParameter.Alike (p q : GenericParameter) : Prop where
  name : q.name = p.name
  index : q.index = p.index
  flags : q.flags = p.flags
  constraints : Signature.AlikeAll R p.constraints q.constraints

structure Method.Alike (m n : Method) : Prop where
  attributes : n.attributes = m.attributes
  genericParameters :
    List.Forall₂ (GenericParameter.Alike R) m.genericParameters n.genericParameters
  parameters : Signature.AlikeAll R m.parameters n.parameters
  returnType : Option.Rel (Signature.Alike R) m.returnType n.returnType

inductive MemberKind.Alike : MemberKind → MemberKind → Prop
  | method {m n : Method} : m.Alike R n → MemberKind.Alike (.method m) (.method n)
  | field {s s' : Option Signature} : Option.Rel (Signature.Alike R) s s' →
      MemberKind.Alike (.field s) (.field s')
  | property {s s' : Option Signature} : Option.Rel (Signature.Alike R) s s' →
      MemberKind.Alike (.property s) (.property s')
  | event {s s' : Option Signature} : Option.Rel (Signature.Alike R) s s' →
      MemberKind.Alike (.event s) (.event s')

structure Member.Alike (m n : Member) : Prop where
  name : n.name = m.name
  declaringType : R m.declaringType n.declaringType
  access : n.access = m.access
  kind : m.kind.Alike R n.kind

mutual

inductive TypeDefinition.Alike : TypeDefinition → TypeDefinition → Prop
  | mk {d d' : TypeRef} {flags : UInt32} {ps ps' : List GenericParameter} {ms ms' : List Member}
      {nested nested' : List TypeDefinition} : R d d' →
      List.Forall₂ (GenericParameter.Alike R) ps ps' → List.Forall₂ (Member.Alike R) ms ms' →
      TypeDefinition.AlikeAll nested nested' →
      TypeDefinition.Alike ⟨d, flags, ps, ms, nested⟩ ⟨d', flags, ps', ms', nested'⟩

inductive TypeDefinition.AlikeAll : List TypeDefinition → List TypeDefinition → Prop
  | nil : TypeDefinition.AlikeAll [] []
  | cons {t u : TypeDefinition} {ts us : List TypeDefinition} : TypeDefinition.Alike t u →
      TypeDefinition.AlikeAll ts us → TypeDefinition.AlikeAll (t :: ts) (u :: us)

end

structure Module.Alike (m n : Module) : Prop where
  name : n.name = m.name
  types : TypeDefinition.AlikeAll R m.types n.types
  exported : List.Forall₂ R m.exported n.exported

/-- The two assemblies differ in their references only, which are related. -/
structure Assembly.Alike (a b : Assembly) : Prop where
  name : b.name = a.name
  modules : List.Forall₂ (Module.Alike R) a.modules b.modules

/-! ## What is like a surface is what is made of it by replacing references -/

theorem forall₂_iff_map {α β : Type} {S : α → β → Prop} {g : α → β}
    (h : ∀ x y, S x y ↔ y = g x) (xs : List α) (ys : List β) :
    List.Forall₂ S xs ys ↔ ys = xs.map g := by
  constructor
  · intro hxs
    exact (eq_map_of_forall₂ (hxs.imp fun x y hx => ((h x y).1 hx).symm)).symm
  · rintro rfl
    exact List.forall₂_map_right_iff.2 (List.forall₂_same.2 fun x _ => (h x _).2 rfl)

theorem option_rel_iff_map {α β : Type} {S : α → β → Prop} {g : α → β}
    (h : ∀ x y, S x y ↔ y = g x) (x : Option α) (y : Option β) :
    Option.Rel S x y ↔ y = x.map g := by
  constructor
  · rintro (hx | _)
    · exact congrArg some ((h _ _).1 hx)
    · rfl
  · rintro rfl
    cases x with
    | none => exact .none
    | some x => exact .some ((h x _).2 rfl)

variable {R} {f : TypeRef → TypeRef}

namespace Signature

mutual

theorem Alike.eq_map (hR : ∀ t u, R t u ↔ u = f t) : {s s' : Signature} → s.Alike R s' →
    s' = s.map f
  | _, _, .named h => congrArg Signature.named ((hR _ _).1 h)
  | _, _, .generic h hs => congrArg₂ Signature.generic ((hR _ _).1 h) (AlikeAll.eq_map hR hs)
  | _, _, .typeParameter _ => rfl
  | _, _, .methodParameter _ => rfl
  | _, _, .array h => congrArg Signature.array (Alike.eq_map hR h)
  | _, _, .byReference h => congrArg Signature.byReference (Alike.eq_map hR h)
  | _, _, .pointer h => congrArg Signature.pointer (Alike.eq_map hR h)

theorem AlikeAll.eq_map (hR : ∀ t u, R t u ↔ u = f t) : {ss ss' : List Signature} →
    AlikeAll R ss ss' → ss' = mapAll f ss
  | _, _, .nil => rfl
  | _, _, .cons h hs => congrArg₂ List.cons (Alike.eq_map hR h) (AlikeAll.eq_map hR hs)

end

mutual

theorem alike_map (hR : ∀ t, R t (f t)) : (s : Signature) → s.Alike R (s.map f)
  | named t => .named (hR t)
  | generic t ss => .generic (hR t) (alikeAll_map hR ss)
  | typeParameter i => .typeParameter i
  | methodParameter i => .methodParameter i
  | array s => .array (alike_map hR s)
  | byReference s => .byReference (alike_map hR s)
  | pointer s => .pointer (alike_map hR s)

theorem alikeAll_map (hR : ∀ t, R t (f t)) : (ss : List Signature) → AlikeAll R ss (mapAll f ss)
  | [] => .nil
  | s :: ss => .cons (alike_map hR s) (alikeAll_map hR ss)

end

theorem alike_iff (hR : ∀ t u, R t u ↔ u = f t) (s s' : Signature) :
    s.Alike R s' ↔ s' = s.map f :=
  ⟨Alike.eq_map hR, fun h => h ▸ s.alike_map fun t => (hR t _).2 rfl⟩

theorem alikeAll_iff (hR : ∀ t u, R t u ↔ u = f t) (ss ss' : List Signature) :
    AlikeAll R ss ss' ↔ ss' = mapAll f ss :=
  ⟨AlikeAll.eq_map hR, fun h => h ▸ alikeAll_map (fun t => (hR t _).2 rfl) ss⟩

end Signature

theorem GenericParameter.alike_iff (hR : ∀ t u, R t u ↔ u = f t) (p q : GenericParameter) :
    p.Alike R q ↔ q = p.map f := by
  obtain ⟨name, index, flags, constraints⟩ := p
  obtain ⟨name', index', flags', constraints'⟩ := q
  constructor
  · rintro ⟨rfl, rfl, rfl, hconstraints⟩
    exact congrArg (GenericParameter.mk _ _ _) ((Signature.alikeAll_iff hR _ _).1 hconstraints)
  · rintro ⟨⟩
    exact ⟨rfl, rfl, rfl, (Signature.alikeAll_iff hR _ _).2 rfl⟩

theorem Method.alike_iff (hR : ∀ t u, R t u ↔ u = f t) (m n : Method) :
    m.Alike R n ↔ n = m.map f := by
  obtain ⟨attributes, ps, parameters, result⟩ := m
  obtain ⟨attributes', ps', parameters', result'⟩ := n
  have hps := forall₂_iff_map (GenericParameter.alike_iff hR) ps ps'
  have hparameters := Signature.alikeAll_iff hR parameters parameters'
  have hresult := option_rel_iff_map (Signature.alike_iff hR) result result'
  constructor
  · rintro ⟨rfl, h, h', h''⟩
    rw [Method.map, hps.1 h, hparameters.1 h', hresult.1 h'']
  · rintro ⟨⟩
    exact ⟨rfl, hps.2 rfl, hparameters.2 rfl, hresult.2 rfl⟩

theorem MemberKind.alike_iff (hR : ∀ t u, R t u ↔ u = f t) (k l : MemberKind) :
    k.Alike R l ↔ l = k.map f := by
  have hvalue := option_rel_iff_map (Signature.alike_iff hR)
  constructor
  · rintro (h | h | h | h)
    · exact congrArg MemberKind.method ((Method.alike_iff hR _ _).1 h)
    · exact congrArg MemberKind.field ((hvalue _ _).1 h)
    · exact congrArg MemberKind.property ((hvalue _ _).1 h)
    · exact congrArg MemberKind.event ((hvalue _ _).1 h)
  · rintro rfl
    cases k with
    | method m => exact .method ((Method.alike_iff hR m _).2 rfl)
    | field s => exact .field ((hvalue s _).2 rfl)
    | property s => exact .property ((hvalue s _).2 rfl)
    | event s => exact .event ((hvalue s _).2 rfl)

theorem Member.alike_iff (hR : ∀ t u, R t u ↔ u = f t) (m n : Member) :
    m.Alike R n ↔ n = m.map f := by
  obtain ⟨name, declaringType, access, kind⟩ := m
  obtain ⟨name', declaringType', access', kind'⟩ := n
  have hdeclaring := hR declaringType declaringType'
  have hkind := MemberKind.alike_iff hR kind kind'
  constructor
  · rintro ⟨rfl, h, rfl, h'⟩
    rw [Member.map, hdeclaring.1 h, hkind.1 h']
  · rintro ⟨⟩
    exact ⟨rfl, hdeclaring.2 rfl, rfl, hkind.2 rfl⟩

namespace TypeDefinition

mutual

theorem Alike.eq_map (hR : ∀ t u, R t u ↔ u = f t) : {t u : TypeDefinition} → t.Alike R u →
    u = t.map f
  | _, _, .mk h hps hms hnested => by
    rw [TypeDefinition.map, (hR _ _).1 h,
      (forall₂_iff_map (GenericParameter.alike_iff hR) _ _).1 hps,
      (forall₂_iff_map (Member.alike_iff hR) _ _).1 hms, AlikeAll.eq_map hR hnested]

theorem AlikeAll.eq_map (hR : ∀ t u, R t u ↔ u = f t) : {ts us : List TypeDefinition} →
    AlikeAll R ts us → us = mapAll f ts
  | _, _, .nil => rfl
  | _, _, .cons h hs => congrArg₂ List.cons (Alike.eq_map hR h) (AlikeAll.eq_map hR hs)

end

mutual

theorem alike_map (hR : ∀ t u, R t u ↔ u = f t) : (t : TypeDefinition) → t.Alike R (t.map f)
  | ⟨d, _, ps, ms, nested⟩ =>
    .mk ((hR d _).2 rfl) ((forall₂_iff_map (GenericParameter.alike_iff hR) ps _).2 rfl)
      ((forall₂_iff_map (Member.alike_iff hR) ms _).2 rfl) (alikeAll_map hR nested)

theorem alikeAll_map (hR : ∀ t u, R t u ↔ u = f t) : (ts : List TypeDefinition) →
    AlikeAll R ts (mapAll f ts)
  | [] => .nil
  | t :: ts => .cons (alike_map hR t) (alikeAll_map hR ts)

end

theorem alikeAll_iff (hR : ∀ t u, R t u ↔ u = f t) (ts us : List TypeDefinition) :
    AlikeAll R ts us ↔ us = mapAll f ts :=
  ⟨AlikeAll.eq_map hR, fun h => h ▸ alikeAll_map hR ts⟩

end TypeDefinition

theorem Module.alike_iff (hR : ∀ t u, R t u ↔ u = f t) (m n : Module) :
    m.Alike R n ↔ n = m.map f := by
  obtain ⟨name, types, exported⟩ := m
  obtain ⟨name', types', exported'⟩ := n
  have htypes := TypeDefinition.alikeAll_iff hR types types'
  have hexported := forall₂_iff_map hR exported exported'
  constructor
  · rintro ⟨rfl, h, h'⟩
    rw [Module.map, htypes.1 h, hexported.1 h']
  · rintro ⟨⟩
    exact ⟨rfl, htypes.2 rfl, hexported.2 rfl⟩

theorem Assembly.alike_iff (hR : ∀ t u, R t u ↔ u = f t) (a b : Assembly) :
    a.Alike R b ↔ b = a.map f := by
  obtain ⟨name, modules⟩ := a
  obtain ⟨name', modules'⟩ := b
  have hmodules := forall₂_iff_map (Module.alike_iff hR) modules modules'
  constructor
  · rintro ⟨rfl, h⟩
    rw [Assembly.map, hmodules.1 h]
  · rintro ⟨⟩
    exact ⟨rfl, hmodules.2 rfl⟩

/-! ## Copies without bindings -/

theorem Assembly.allTypes_detached (a : Assembly) :
    a.detached.allTypes = a.allTypes.map TypeDefinition.detached := by
  rw [allTypes, a.topLevel_detached, TypeDefinition.shaping_detached.walk, allTypes]

theorem TypeDefinition.refs_detached (t : TypeDefinition) :
    t.detached.refs = t.refs.map TypeRef.detached :=
  refs_map _ t

/-- The copy of an assembly without bindings is the one assembly that is like it and has, at each
place, the reference there without what it is bound to. Whatever its references are bound to, the
types of the copy are the copies of its types, in their order; the references of each of them are
the copies of the references of the original, in theirs, and so whoever visits the copy visits
these. A copy of a copy is the same copy. -/
theorem Assembly.detached_exact (a : Assembly) :
    (∀ b, a.Alike TypeRef.Forgets b ↔ b = a.detached) ∧
      a.detached.allTypes = a.allTypes.map TypeDefinition.detached ∧
      (∀ t : TypeDefinition, t.detached.refs = t.refs.map TypeRef.detached) ∧
      (∀ (σ : Type) (visit : TypeRef → StateM σ TypeRef) (t : TypeDefinition),
        TypeDefinition.refs <$> t.detached.traverse visit =
          (t.refs.map TypeRef.detached).mapM visit) ∧
      a.detached.detached = a.detached := by
  refine ⟨Assembly.alike_iff TypeRef.forgets_iff a, a.allTypes_detached,
    TypeDefinition.refs_detached, fun σ visit t => ?_, a.detached_detached⟩
  rw [← t.refs_detached]
  exact (TypeDefinition.visits_traverse t.detached).map_eq

end ApiEvolution
