import ApiEvolution.Proofs.Pairing.OuterJoin
import ApiEvolution.Proofs.Surface.Detached

/-!
# Binding an assembly to itself

Before an assembly enters a tree, its references are gone through one after the other. What
becomes of a reference depends on the assembly alone (`Loaded.localize`), and what it is bound to
then is noticed (`Loaded.bound_spec`). So a tree that keeps what was noticed has no dangling
reference of the assembly's own types that did not dangle before (`Loaded.release_eq`).
-/

namespace ApiEvolution

namespace Loaded

variable (l : Loaded)

/-- What a reference of the assembly is replaced by. -/
def localize (t : TypeRef) : TypeRef :=
  ((ApiEvolution.bindLocally l t).run {}).1

/-- What is noticed in the assembly. -/
def noticed : Noticed :=
  (l.bindLocally.run {}).2

/-- What a reference is replaced by does not depend on what was noticed before, and what it is bound
to then is noticed. -/
theorem bindLocally_run (t : TypeRef) (n : Noticed) : ∃ n' : Noticed,
    (ApiEvolution.bindLocally l t).run n = (l.localize t, n') ∧ n.retained ⊆ n'.retained ∧
      ∀ id, (l.localize t).target? = some id → id ∈ n'.retained := by
  obtain ⟨space, name, scope, binding⟩ := t
  cases binding with
  | resolved id d =>
    refine ⟨_, rfl, List.subset_append_left _ _, fun id' hid => ?_⟩
    obtain rfl : id = id' := Option.some.inj hid
    exact List.mem_concat_self
  | unbound =>
    unfold localize ApiEvolution.bindLocally
    simp only [StateT.run, TypeRef.binding]
    cases l.assembly.locate (.mk space name scope .unbound) with
    | none => exact ⟨_, rfl, List.Subset.refl _, fun _ hno => by cases hno⟩
    | some f =>
      refine ⟨_, rfl, List.subset_append_left _ _, fun id' hid => ?_⟩
      obtain rfl : (⟨l.id, f.position⟩ : DefinitionId) = id' := Option.some.inj hid
      exact List.mem_concat_self
  | _ => exact ⟨_, rfl, List.Subset.refl _, fun _ hno => by cases hno⟩

theorem scope_localize (t : TypeRef) : (l.localize t).scope = t.scope := by
  obtain ⟨space, name, scope, binding⟩ := t
  cases binding with
  | unbound =>
    unfold localize ApiEvolution.bindLocally
    simp only [StateT.run, TypeRef.binding]
    cases l.assembly.locate (.mk space name scope .unbound) <;> rfl
  | _ => rfl

theorem flat_localize {t : TypeRef} (h : t.Flat) : (l.localize t).Flat := by
  rw [TypeRef.Flat, l.scope_localize]
  exact h

theorem detached_localize (t : TypeRef) : (l.localize t).detached = t.detached := by
  obtain ⟨space, name, scope, binding⟩ := t
  cases binding with
  | unbound =>
    unfold localize ApiEvolution.bindLocally
    simp only [StateT.run, TypeRef.binding]
    cases l.assembly.locate (.mk space name scope .unbound) <;> rfl
  | _ => rfl

/-- What a reference is bound to then it was bound to before, or it was located in the assembly. -/
theorem resolved_of_localize {t : TypeRef} {id : DefinitionId} {d : TypeRef}
    (h : (l.localize t).binding = .resolved id d) : t.binding = .resolved id d ∨
      ∃ f, l.assembly.locate t = some f ∧ id = ⟨l.id, f.position⟩ ∧ d = f.type.descriptor := by
  obtain ⟨space, name, scope, binding⟩ := t
  cases binding with
  | unbound =>
    unfold localize ApiEvolution.bindLocally at h
    simp only [StateT.run, TypeRef.binding] at h
    cases hf : l.assembly.locate (.mk space name scope .unbound) with
    | none =>
      rw [hf] at h
      cases h
    | some f =>
      rw [hf] at h
      cases h
      exact .inr ⟨f, rfl, rfl, rfl⟩
  | resolved id' d' => exact .inl h
  | _ => cases h

/-- A reference that is bound stays as it is. -/
theorem localize_of_isBound {t : TypeRef} (h : t.isBound) : l.localize t = t := by
  obtain ⟨space, name, scope, binding⟩ := t
  cases binding with
  | unbound => cases h
  | _ => rfl

/-- References are replaced one after the other, and what they are bound to is noticed. -/
def noticing : Passage Noticed where
  le n n' := n.retained ⊆ n'.retained
  rel n t t' := t' = l.localize t ∧ ∀ id, t'.target? = some id → id ∈ n.retained
  refl n := List.Subset.refl n.retained
  trans := List.Subset.trans
  mono hle hrel := hrel.imp_right fun hknown id hid => hle (hknown id hid)

theorem passes_bindLocally (t : TypeRef) :
    l.noticing.Passes Eq (ApiEvolution.bindLocally l t) t := by
  rintro n _ rfl
  obtain ⟨n', hrun, hle, hknown⟩ := l.bindLocally_run t n
  rw [Passage.EnsuresFrom, hrun]
  exact ⟨n', hle, rfl, _, .single ⟨rfl, hknown⟩, rfl⟩

/-- The references of the types of a module are replaced, and what they are bound to is noticed. -/
theorem ensures_types (m : Module) :
    l.noticing.Ensures Eq
      (do return { m with types := ← TypeDefinition.traverseAll (ApiEvolution.bindLocally l) m.types })
      fun n m' => m' = { m with types := TypeDefinition.rebindAll l.localize m.types } ∧
        ∀ r ∈ TypeDefinition.refsOf m.types, ∀ id, (l.localize r).target? = some id →
          id ∈ n.retained := by
  intro n s hn
  have htypes := Passage.passes_types m.types (fun r _ => l.passes_bindLocally r) n s hn
  refine Passage.ensuresFrom_bind htypes fun n' s' types _ hn' hfilled => ?_
  obtain ⟨types', hreplaced, hvalue⟩ := hfilled
  refine Passage.ensuresFrom_pure hn' ⟨?_, ?_⟩
  · rw [hreplaced.rebindAll_eq fun _ _ hr => hr.1.symm, hvalue]
    rfl
  · intro r hr id hid
    rw [TypeDefinition.refsOf_eq] at hr
    obtain ⟨_, -, rfl, hknown⟩ :=
      exists_of_forall₂ (R := flip (l.noticing.rel n')) hreplaced.related.flip hr
    exact hknown id hid

/-- The references of the types are replaced, and what they are bound to then is noticed. -/
theorem bound_spec :
    l.bound = { l with assembly := { l.assembly with modules := l.assembly.modules.map fun m =>
        { m with types := TypeDefinition.rebindAll l.localize m.types } } } ∧
      ∀ m ∈ l.assembly.modules, ∀ r ∈ TypeDefinition.refsOf m.types, ∀ id,
        (l.localize r).target? = some id → id ∈ l.noticed.retained := by
  have hmodules : l.noticing.Ensures Eq
      (l.assembly.modules.mapM fun m => do
        return { m with types := ← TypeDefinition.traverseAll (ApiEvolution.bindLocally l) m.types })
      fun n ms => ms = (l.assembly.modules.map fun m =>
          { m with types := TypeDefinition.rebindAll l.localize m.types }) ∧
        ∀ m ∈ l.assembly.modules, ∀ r ∈ TypeDefinition.refsOf m.types, ∀ id,
          (l.localize r).target? = some id → id ∈ n.retained :=
    Passage.ensures_mapM (fun hle hknown r hr id hid => hle (hknown r hr id hid))
      fun m _ => l.ensures_types m
  obtain ⟨n, -, rfl, hvalue, hknown⟩ := hmodules {} {} rfl
  rw [bound, noticed, bindLocally, StateT.run_bind]
  exact ⟨by rw [← hvalue]; rfl, hknown⟩

/-- Binding an assembly to itself does not show in its copy. -/
theorem detached_bound : l.bound.assembly.detached = l.assembly.detached := by
  rw [l.bound_spec.1, Assembly.detached, Assembly.detached, Assembly.map, Assembly.map,
    List.map_map]
  congr 1
  refine List.map_congr_left fun m _ => ?_
  rw [Function.comp_apply, Module.map, TypeDefinition.mapAll_rebindAll l.detached_localize,
    Module.map]

theorem topLevel_bound :
    l.bound.assembly.topLevel = l.assembly.topLevel.map (TypeDefinition.rebind l.localize) := by
  rw [l.bound_spec.1, Assembly.topLevel, Assembly.topLevel, List.flatMap_map, List.map_flatMap]
  exact List.flatMap_congr fun m _ => TypeDefinition.rebindAll_eq l.localize m.types

theorem typeRefs_bound : l.bound.assembly.typeRefs = l.assembly.typeRefs.map l.localize := by
  rw [Assembly.typeRefs, l.topLevel_bound, ← TypeDefinition.rebindAll_eq,
    TypeDefinition.refsOf_rebindAll, Assembly.typeRefs]

theorem exported_bound : l.bound.assembly.exported = l.assembly.exported := by
  rw [l.bound_spec.1]
  exact List.flatMap_map ..

variable {l} {kept : DefinitionId → Bool}

/-- No reference of the types of an assembly dangles as long as what was noticed is kept. -/
theorem release_eq (hflat : ∀ r ∈ l.assembly.references, r.Flat)
    (hkept : ∀ id ∈ l.noticed.retained, kept id) {r : TypeRef}
    (hr : r ∈ l.bound.assembly.typeRefs) : r.release kept = r := by
  obtain ⟨hbound, hknown⟩ := l.bound_spec
  rw [hbound, Assembly.typeRefs, TypeDefinition.refsOf_eq] at hr
  obtain ⟨t, ht, hr⟩ := List.mem_flatMap.1 hr
  obtain ⟨m', hm', ht⟩ := List.mem_flatMap.1 ht
  obtain ⟨m, hm, rfl⟩ := List.mem_map.1 hm'
  have hmem : r ∈ TypeDefinition.refsOf (TypeDefinition.rebindAll l.localize m.types) := by
    rw [TypeDefinition.refsOf_eq]
    exact List.mem_flatMap.2 ⟨t, ht, hr⟩
  rw [TypeDefinition.refsOf_rebindAll] at hmem
  obtain ⟨q, hq, rfl⟩ := List.mem_map.1 hmem
  have hqflat := hflat q (Assembly.mem_references.2 ⟨m, hm, List.mem_append_left _ hq⟩)
  exact (l.flat_localize hqflat).release_eq fun id hid => hkept id (hknown m hm q hq id hid)

end Loaded

/-- What an assembly adds to a tree, all of it as the assembly is bound to itself. -/
theorem SurfaceTree.enter_eq (definitions : DefinitionId → Option TypeDefinition) (l : Loaded)
    (side : Side) (tree : SurfaceTree) : tree.enter definitions l side =
      { tree with
        assemblies := tree.assemblies.set l.bound side
        nodes := (tree.selection.registered definitions l.bound).foldl
          (register tree.selection side) tree.nodes
        retained := tree.retained ++ l.noticed.retained
        diagnostics := tree.diagnostics ++ l.noticed.diagnostics ++
          l.bound.brokenExports definitions } :=
  rfl

end ApiEvolution
