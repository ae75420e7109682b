import Mathlib.Data.List.Forall2
import ApiEvolution.Proofs.Surface.Detached

/-!
# Every reference of an assembly

References stand in signatures and among exported types, but also as labels: descriptors, and
declaring types of members. Each has declaring types of its own, which are references as well. The
`occurrences` of an assembly are all of these. An assembly goes `Onward` when it stays the same
apart from bindings, and bindings that were made stay or are given up.
-/

namespace ApiEvolution

/-! ## Labels -/

namespace TypeDefinition

mutual

/-- The descriptors of the type and of the types nested in it, and the declaring types that members
name. -/
def labels : TypeDefinition → List TypeRef
  | ⟨d, _, _, ms, nested⟩ => d :: ms.map (·.declaringType) ++ labelsOf nested

def labelsOf : List TypeDefinition → List TypeRef
  | [] => []
  | t :: rest => t.labels ++ labelsOf rest

end

theorem labelsOf_eq (ts : List TypeDefinition) : labelsOf ts = ts.flatMap labels := by
  induction ts with
  | nil => rfl
  | cons t ts ih => rw [labelsOf, ih, List.flatMap_cons]

theorem descriptor_mem_labels (t : TypeDefinition) : t.descriptor ∈ t.labels := by
  cases t
  exact List.mem_cons_self

theorem labels_of_nestedTypes {t u : TypeDefinition} (hu : u ∈ t.nestedTypes) :
    u.labels ⊆ t.labels := by
  obtain ⟨d, flags, ps, ms, nested⟩ := t
  intro r hr
  refine List.mem_append_right _ ?_
  rw [labelsOf_eq]
  exact List.mem_flatMap.2 ⟨u, hu, hr⟩

theorem labels_of_descend {t u : TypeDefinition} {p : List Nat} (h : t.descend p = some u) :
    u.labels ⊆ t.labels := by
  induction p generalizing t with
  | nil =>
    cases h
    exact List.Subset.refl _
  | cons i p ih =>
    rw [descend] at h
    split at h
    · next v hv => exact List.Subset.trans (ih h) (labels_of_nestedTypes (List.mem_of_getElem? hv))
    · cases h

variable (f : TypeRef → TypeRef)

mutual

theorem labels_map : (t : TypeDefinition) → (t.map f).labels = t.labels.map f
  | ⟨d, flags, ps, ms, nested⟩ => by
    have hmembers : (ms.map (·.map f)).map (·.declaringType) =
        (ms.map (·.declaringType)).map f := by
      rw [List.map_map, List.map_map]
      rfl
    rw [map, labels, labels, hmembers, labelsOf_mapAll nested, List.map_append, List.map_cons]

theorem labelsOf_mapAll : (ts : List TypeDefinition) → labelsOf (mapAll f ts) = (labelsOf ts).map f
  | [] => rfl
  | t :: ts => by rw [mapAll, labelsOf, labelsOf, labels_map t, labelsOf_mapAll ts, List.map_append]

end

mutual

theorem labels_rebind : (t : TypeDefinition) → (t.rebind f).labels = t.labels
  | ⟨d, flags, ps, ms, nested⟩ => by
    have hmembers : (ms.map (·.rebind f)).map (·.declaringType) = ms.map (·.declaringType) := by
      rw [List.map_map]
      rfl
    rw [rebind, labels, labels, hmembers, labelsOf_rebindAll nested]

theorem labelsOf_rebindAll : (ts : List TypeDefinition) → labelsOf (rebindAll f ts) = labelsOf ts
  | [] => rfl
  | t :: ts => by rw [rebindAll, labelsOf, labelsOf, labels_rebind t, labelsOf_rebindAll ts]

end

end TypeDefinition

namespace Assembly

/-- The references that are no signatures: descriptors, and declaring types of members. -/
def labels (a : Assembly) : List TypeRef :=
  TypeDefinition.labelsOf a.topLevel

variable {a b : Assembly}

theorem labels_map (f : TypeRef → TypeRef) (a : Assembly) : (a.map f).labels = a.labels.map f := by
  rw [labels, labels, topLevel_map, ← TypeDefinition.mapAll_eq, TypeDefinition.labelsOf_mapAll]

theorem labels_eq_of_topLevel {f : TypeRef → TypeRef}
    (h : b.topLevel = a.topLevel.map (TypeDefinition.rebind f)) : b.labels = a.labels := by
  rw [labels, h, ← TypeDefinition.rebindAll_eq, TypeDefinition.labelsOf_rebindAll, labels]

theorem topLevel_rebind (f : TypeRef → TypeRef) (a : Assembly) :
    (a.rebind f).topLevel = a.topLevel.map (TypeDefinition.rebind f) := by
  rw [topLevel, topLevel, rebind, List.flatMap_map, List.map_flatMap]
  exact List.flatMap_congr fun m _ => TypeDefinition.rebindAll_eq f m.types

/-- Labels are not replaced. -/
theorem labels_of_replaced {R : TypeRef → TypeRef → Prop} (h : Replaced R a b) :
    b.labels = a.labels :=
  h.unchanged fun f a => labels_eq_of_topLevel (a.topLevel_rebind f)

theorem topLevel_setExported (a : Assembly) (module position : Nat) (t : TypeRef) :
    (a.setExported module position t).topLevel = a.topLevel := by
  have htypes : (a.modules.modify module fun m =>
      { m with exported := m.exported.set position t }).map (·.types) =
        a.modules.map (·.types) := by
    refine List.ext_getElem? fun i => ?_
    rw [List.getElem?_map, List.getElem?_modify, List.getElem?_map, Option.map_eq_map,
      Option.map_map]
    refine Option.map_congr fun m _ => ?_
    rw [Function.comp_apply]
    split <;> rfl
  rw [topLevel, topLevel, setExported, List.flatMap_def, htypes, ← List.flatMap_def]

theorem labels_of_definitionAt? {p : List Nat} {t : TypeDefinition}
    (h : a.definitionAt? p = some t) : t.labels ⊆ a.labels := by
  cases p with
  | nil => cases h
  | cons i p =>
    obtain ⟨u, hu, hd⟩ := Option.bind_eq_some_iff.1 h
    refine List.Subset.trans (TypeDefinition.labels_of_descend hd) fun r hr => ?_
    rw [labels, TypeDefinition.labelsOf_eq]
    exact List.mem_flatMap.2 ⟨u, List.mem_of_getElem? hu, hr⟩

/-- An assembly without bindings has no label with one. -/
theorem detached_of_mem_labels (h : a.detached = a) {r : TypeRef} (hr : r ∈ a.labels) :
    r.detached = r := by
  have hlabels : a.labels.map TypeRef.detached = a.labels := by
    rw [← labels_map]
    exact congrArg labels h
  exact List.map_inj_left.1 (hlabels.trans (List.map_id _).symm) r hr

end Assembly

/-! ## Declaring types -/

mutual

/-- The reference and its declaring types, the innermost first. -/
def TypeRef.chain : TypeRef → List TypeRef
  | .mk space name scope binding => .mk space name scope binding :: scope.chain

def Scope.chain : Scope → List TypeRef
  | .assembly _ => []
  | .nested declaring => declaring.chain

end

theorem TypeRef.chain_eq (t : TypeRef) : t.chain = t :: t.scope.chain := by
  cases t
  rfl

mutual

theorem TypeRef.chain_release (kept : DefinitionId → Bool) : (t : TypeRef) →
    (t.release kept).chain = t.chain.map (TypeRef.release kept)
  | .mk space name scope binding => by
    rw [TypeRef.release, TypeRef.chain, TypeRef.chain, Scope.chain_release kept scope,
      List.map_cons, TypeRef.release]

theorem Scope.chain_release (kept : DefinitionId → Bool) : (s : Scope) →
    (s.release kept).chain = s.chain.map (TypeRef.release kept)
  | .assembly _ => rfl
  | .nested d => TypeRef.chain_release kept d

end

mutual

theorem TypeRef.detached_of_mem_chain : (t : TypeRef) → ∀ r ∈ t.detached.chain, r.detached = r
  | .mk space name scope binding => by
    intro r hr
    rcases List.mem_cons.1 hr with rfl | hr
    · exact TypeRef.detached_detached (.mk space name scope binding)
    · exact Scope.detached_of_mem_chain scope r hr

theorem Scope.detached_of_mem_chain : (s : Scope) → ∀ r ∈ s.detached.chain, r.detached = r
  | .assembly _ => fun _ hr => by cases hr
  | .nested d => TypeRef.detached_of_mem_chain d

end

/-- In a flat reference nothing but the reference itself is bound. -/
theorem TypeRef.Flat.eq_or_detached {t r : TypeRef} (h : t.Flat) (hr : r ∈ t.chain) :
    r = t ∨ r.detached = r := by
  rw [t.chain_eq] at hr
  refine (List.mem_cons.1 hr).imp_right fun hr => ?_
  have hscope : t.scope.detached = t.scope := h
  rw [← hscope] at hr
  exact Scope.detached_of_mem_chain t.scope r hr

theorem TypeRef.ne_resolved_of_detached {r : TypeRef} (h : r.detached = r) (id : DefinitionId)
    (d : TypeRef) : r.binding ≠ .resolved id d := by
  obtain ⟨space, name, scope, binding⟩ := r
  rintro rfl
  simp [TypeRef.detached, Binding.detached] at h

/-- All references in the assembly, each before its declaring types. -/
def Assembly.occurrences (a : Assembly) : List TypeRef :=
  (a.labels ++ a.references).flatMap TypeRef.chain

/-! ## Going onward -/

/-- A binding that was made stays or is given up. -/
def Binding.Onward : Binding → Binding → Prop
  | .unbound, _ => True
  | .resolved id d, b => b = .resolved id d ∨ b = .dropped
  | b, b' => b' = b

namespace Binding.Onward

variable {b b' b'' : Binding}

theorem refl (b : Binding) : b.Onward b := by
  cases b with
  | unbound => trivial
  | resolved id d => exact .inl rfl
  | _ => rfl

theorem trans (h : b.Onward b') (h' : b'.Onward b'') : b.Onward b'' := by
  cases b with
  | unbound => trivial
  | resolved id d =>
    rcases h with rfl | rfl
    · exact h'
    · exact .inr h'
  | _ =>
    cases h
    exact h'

theorem release (kept : DefinitionId → Bool) (b : Binding) : b.Onward (b.release kept) := by
  cases b with
  | unbound => trivial
  | resolved id d =>
    rw [Binding.release]
    split
    · exact .inl rfl
    · exact .inr rfl
  | _ => rfl

end Binding.Onward

/-- The reference is the same apart from its binding, which goes onward. -/
structure TypeRef.Onward (t t' : TypeRef) : Prop where
  place : t'.detached = t.detached
  binding : t.binding.Onward t'.binding

namespace TypeRef.Onward

theorem refl (t : TypeRef) : t.Onward t :=
  ⟨rfl, .refl t.binding⟩

theorem trans {t t' t'' : TypeRef} (h : t.Onward t') (h' : t'.Onward t'') : t.Onward t'' :=
  ⟨h'.place.trans h.place, h.binding.trans h'.binding⟩

theorem release (kept : DefinitionId → Bool) (t : TypeRef) : t.Onward (t.release kept) := by
  refine ⟨t.detached_release kept, ?_⟩
  obtain ⟨space, name, scope, binding⟩ := t
  exact .release kept binding

end TypeRef.Onward

/-- The assembly is the same apart from bindings, which go onward wherever they are. -/
structure Assembly.Onward (a b : Assembly) : Prop where
  detached : b.detached = a.detached
  occurrences : List.Forall₂ TypeRef.Onward a.occurrences b.occurrences

namespace Assembly.Onward

variable {a b c : Assembly}

theorem refl (a : Assembly) : a.Onward a :=
  ⟨rfl, List.forall₂_same.2 fun t _ => .refl t⟩

theorem trans (h : a.Onward b) (h' : b.Onward c) : a.Onward c :=
  ⟨h'.detached.trans h.detached,
    forall₂_trans (fun _ _ _ hxy hyz => hxy.trans hyz) h.occurrences h'.occurrences⟩

/-- Definitions are given up. -/
theorem release (kept : DefinitionId → Bool) (a : Assembly) : a.Onward (a.release kept) := by
  have hoccurrences : (a.release kept).occurrences = a.occurrences.map (TypeRef.release kept) := by
    rw [Assembly.occurrences, Assembly.release, labels_map, references_map, ← List.map_append,
      List.flatMap_map, Assembly.occurrences, List.map_flatMap]
    exact List.flatMap_congr fun t _ => t.chain_release kept
  refine ⟨a.detached_release kept, ?_⟩
  rw [hoccurrences, List.forall₂_map_right_iff]
  exact List.forall₂_same.2 fun t _ => .release kept t

/-- Some references are replaced by ones that go onward and have the same declaring types. -/
theorem of_references (hdetached : b.detached = a.detached) (hlabels : b.labels = a.labels)
    (hreferences : List.Forall₂ (fun t t' => t.Onward t' ∧ t'.scope = t.scope) a.references
      b.references) : a.Onward b := by
  refine ⟨hdetached, ?_⟩
  have hchain : ∀ t t' : TypeRef, t.Onward t' ∧ t'.scope = t.scope →
      List.Forall₂ TypeRef.Onward t.chain t'.chain := by
    rintro t t' ⟨honward, hscope⟩
    rw [t.chain_eq, t'.chain_eq, hscope]
    exact .cons honward (List.forall₂_same.2 fun r _ => .refl r)
  rw [Assembly.occurrences, Assembly.occurrences, hlabels, List.flatMap_append, List.flatMap_append]
  exact List.rel_append (List.forall₂_same.2 fun r _ => .refl r)
    (List.rel_flatMap hreferences fun t t' h => hchain t t' h)

end Assembly.Onward

end ApiEvolution
