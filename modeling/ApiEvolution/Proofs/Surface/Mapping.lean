import Mathlib.Data.List.Basic
import ApiEvolution.Proofs.Surface.Rebinding

/-!
# Replacing every reference

`map` reaches every reference of a surface, so replacing twice is replacing once (`map_map`),
replacing each reference by itself changes nothing (`map_id`, `rebind_id`), and the references of
what is made are the replaced ones (`refs_map`). It follows that an assembly
without bindings has none anywhere (`Assembly.detached_of_mem_references`) and nothing to give up
(`Assembly.release_of_detached`).
-/

namespace ApiEvolution

mutual

/-- A reference without bindings has nothing to give up. -/
theorem TypeRef.release_detached (kept : DefinitionId → Bool) : (t : TypeRef) →
    t.detached.release kept = t.detached
  | .mk space name scope binding => by
    have hbinding : binding.detached.release kept = binding.detached := by
      cases binding <;> rfl
    rw [TypeRef.detached, TypeRef.release, Scope.release_detached kept scope, hbinding]

theorem Scope.release_detached (kept : DefinitionId → Bool) : (s : Scope) →
    s.detached.release kept = s.detached
  | .assembly _ => rfl
  | .nested d => congrArg Scope.nested (TypeRef.release_detached kept d)

end

variable (f g : TypeRef → TypeRef)

/-! ## Replacing twice -/

namespace Signature

mutual

theorem map_map : (s : Signature) → (s.map f).map g = s.map (g ∘ f)
  | named _ => rfl
  | generic t ss => by rw [map, map, map, mapAll_mapAll ss]; rfl
  | typeParameter _ => rfl
  | methodParameter _ => rfl
  | array s => congrArg array (map_map s)
  | byReference s => congrArg byReference (map_map s)
  | pointer s => congrArg pointer (map_map s)

theorem mapAll_mapAll : (ss : List Signature) → mapAll g (mapAll f ss) = mapAll (g ∘ f) ss
  | [] => rfl
  | s :: ss => by rw [mapAll, mapAll, mapAll, map_map s, mapAll_mapAll ss]

end

theorem option_map_map (s : Option Signature) :
    (s.map (map f)).map (map g) = s.map (map (g ∘ f)) := by
  rw [Option.map_map]
  exact Option.map_congr fun s _ => map_map f g s

end Signature

theorem GenericParameter.map_map (p : GenericParameter) : (p.map f).map g = p.map (g ∘ f) := by
  rw [map, map, map, Signature.mapAll_mapAll]

theorem GenericParameter.list_map_map (ps : List GenericParameter) :
    (ps.map (map f)).map (map g) = ps.map (map (g ∘ f)) := by
  rw [List.map_map]
  exact List.map_congr_left fun p _ => map_map f g p

theorem Method.map_map (m : Method) : (m.map f).map g = m.map (g ∘ f) := by
  rw [map, map, map, GenericParameter.list_map_map, Signature.mapAll_mapAll,
    Signature.option_map_map]

theorem MemberKind.map_map (k : MemberKind) : (k.map f).map g = k.map (g ∘ f) := by
  cases k with
  | method m => exact congrArg method (Method.map_map f g m)
  | field t => exact congrArg field (Signature.option_map_map f g t)
  | property t => exact congrArg property (Signature.option_map_map f g t)
  | event t => exact congrArg event (Signature.option_map_map f g t)

theorem Member.map_map (m : Member) : (m.map f).map g = m.map (g ∘ f) := by
  rw [map, map, map, MemberKind.map_map]
  rfl

namespace TypeDefinition

mutual

theorem map_map : (t : TypeDefinition) → (t.map f).map g = t.map (g ∘ f)
  | ⟨d, flags, ps, ms, nested⟩ => by
    have hmembers : (ms.map (·.map f)).map (·.map g) = ms.map (·.map (g ∘ f)) := by
      rw [List.map_map]
      exact List.map_congr_left fun m _ => Member.map_map f g m
    rw [map, map, map, GenericParameter.list_map_map, hmembers, mapAll_mapAll nested]
    rfl

theorem mapAll_mapAll : (ts : List TypeDefinition) → mapAll g (mapAll f ts) = mapAll (g ∘ f) ts
  | [] => rfl
  | t :: ts => by rw [mapAll, mapAll, mapAll, map_map t, mapAll_mapAll ts]

end

end TypeDefinition

theorem Assembly.map_map (a : Assembly) : (a.map f).map g = a.map (g ∘ f) := by
  rw [map, map, map, List.map_map]
  congr 1
  refine List.map_congr_left fun m _ => ?_
  simp only [Function.comp_apply, Module.map, TypeDefinition.mapAll_mapAll, List.map_map]

/-! ## Replacing nothing -/

namespace Signature

mutual

theorem map_id : (s : Signature) → s.map id = s
  | named _ => rfl
  | generic t ss => by rw [map, mapAll_id ss]; rfl
  | typeParameter _ => rfl
  | methodParameter _ => rfl
  | array s => congrArg array (map_id s)
  | byReference s => congrArg byReference (map_id s)
  | pointer s => congrArg pointer (map_id s)

theorem mapAll_id : (ss : List Signature) → mapAll id ss = ss
  | [] => rfl
  | s :: ss => by rw [mapAll, map_id s, mapAll_id ss]

end

theorem option_map_id (s : Option Signature) : s.map (map id) = s := by
  rw [funext map_id]
  exact Option.map_id'

end Signature

theorem GenericParameter.map_id (p : GenericParameter) : p.map id = p := by
  rw [map, Signature.mapAll_id]

theorem GenericParameter.list_map_id (ps : List GenericParameter) : ps.map (map id) = ps := by
  rw [funext map_id]
  exact List.map_id' ps

theorem Method.map_id (m : Method) : m.map id = m := by
  rw [map, GenericParameter.list_map_id, Signature.mapAll_id, Signature.option_map_id]

theorem MemberKind.map_id (k : MemberKind) : k.map id = k := by
  cases k with
  | method m => exact congrArg method (Method.map_id m)
  | field t => exact congrArg field (Signature.option_map_id t)
  | property t => exact congrArg property (Signature.option_map_id t)
  | event t => exact congrArg event (Signature.option_map_id t)

theorem Member.rebind_id (m : Member) : m.rebind id = m := by
  rw [rebind, MemberKind.map_id]

theorem Member.map_id (m : Member) : m.map id = m := by
  rw [map, MemberKind.map_id]
  rfl

namespace TypeDefinition

mutual

theorem map_id : (t : TypeDefinition) → t.map id = t
  | ⟨d, flags, ps, ms, nested⟩ => by
    have hmembers : ms.map (·.map id) = ms := by
      rw [funext Member.map_id]
      exact List.map_id' ms
    rw [map, GenericParameter.list_map_id, hmembers, mapAll_id nested]
    rfl

theorem mapAll_id : (ts : List TypeDefinition) → mapAll id ts = ts
  | [] => rfl
  | t :: ts => by rw [mapAll, map_id t, mapAll_id ts]

end

end TypeDefinition

theorem Assembly.map_id (a : Assembly) : a.map id = a := by
  have hmodule : ∀ m : Module, m.map id = m := by
    intro m
    rw [Module.map, TypeDefinition.mapAll_id, List.map_id]
  rw [map, funext hmodule, List.map_id']

namespace TypeDefinition

mutual

theorem rebind_id : (t : TypeDefinition) → t.rebind id = t
  | ⟨d, flags, ps, ms, nested⟩ => by
    have hmembers : ms.map (·.rebind id) = ms := by
      rw [funext Member.rebind_id]
      exact List.map_id' ms
    rw [rebind, GenericParameter.list_map_id, hmembers, rebindAll_id nested]

theorem rebindAll_id : (ts : List TypeDefinition) → rebindAll id ts = ts
  | [] => rfl
  | t :: ts => by rw [rebindAll, rebind_id t, rebindAll_id ts]

end

end TypeDefinition

theorem Assembly.rebind_id (a : Assembly) : a.rebind id = a := by
  have hmodule : ∀ m : Module, m.rebind id = m := by
    intro m
    rw [Module.rebind, TypeDefinition.rebindAll_id, List.map_id]
  rw [rebind, funext hmodule, List.map_id']

/-! ## References of what is made -/

namespace Signature

mutual

theorem refs_map : (s : Signature) → (s.map f).refs = s.refs.map f
  | named _ => rfl
  | generic t ss => by rw [map, refs, refs, refsOf_mapAll ss, List.map_cons]
  | typeParameter _ => rfl
  | methodParameter _ => rfl
  | array s => refs_map s
  | byReference s => refs_map s
  | pointer s => refs_map s

theorem refsOf_mapAll : (ss : List Signature) → refsOf (mapAll f ss) = (refsOf ss).map f
  | [] => rfl
  | s :: ss => by rw [mapAll, refsOf, refsOf, refs_map s, refsOf_mapAll ss, List.map_append]

end

theorem refsOf_option_map (s : Option Signature) :
    refsOf (s.map (map f)).toList = (refsOf s.toList).map f := by
  cases s with
  | none => rfl
  | some s => exact refsOf_mapAll f [s]

end Signature

theorem GenericParameter.refsOf_map (ps : List GenericParameter) :
    refsOf (ps.map (map f)) = (refsOf ps).map f := by
  rw [refsOf, refsOf, List.flatMap_map, List.map_flatMap]
  exact List.flatMap_congr fun p _ => Signature.refsOf_mapAll f p.constraints

theorem Method.refs_map (m : Method) : (m.map f).refs = m.refs.map f := by
  simp only [map, refs, GenericParameter.refsOf_map, Signature.refsOf_mapAll,
    Signature.refsOf_option_map, List.map_append]

theorem MemberKind.refs_map (k : MemberKind) : (k.map f).refs = k.refs.map f := by
  cases k with
  | method m => exact Method.refs_map f m
  | field t | property t | event t => exact Signature.refsOf_option_map f t

namespace TypeDefinition

mutual

theorem refs_map : (t : TypeDefinition) → (t.map f).refs = t.refs.map f
  | ⟨d, flags, ps, ms, nested⟩ => by
    have hmembers : (ms.map (·.map f)).flatMap Member.refs = (ms.flatMap Member.refs).map f := by
      rw [List.flatMap_map, List.map_flatMap]
      exact List.flatMap_congr fun m _ => MemberKind.refs_map f m.kind
    rw [map, refs, refs, GenericParameter.refsOf_map, hmembers, refsOf_mapAll nested,
      List.map_append, List.map_append]

theorem refsOf_mapAll : (ts : List TypeDefinition) → refsOf (mapAll f ts) = (refsOf ts).map f
  | [] => rfl
  | t :: ts => by rw [mapAll, refsOf, refsOf, refs_map t, refsOf_mapAll ts, List.map_append]

end

mutual

theorem refs_rebind : (t : TypeDefinition) → (t.rebind f).refs = t.refs.map f
  | ⟨d, flags, ps, ms, nested⟩ => by
    have hmembers : (ms.map (·.rebind f)).flatMap Member.refs = (ms.flatMap Member.refs).map f := by
      rw [List.flatMap_map, List.map_flatMap]
      exact List.flatMap_congr fun m _ => MemberKind.refs_map f m.kind
    rw [rebind, refs, refs, GenericParameter.refsOf_map, hmembers, refsOf_rebindAll nested,
      List.map_append, List.map_append]

theorem refsOf_rebindAll : (ts : List TypeDefinition) → refsOf (rebindAll f ts) = (refsOf ts).map f
  | [] => rfl
  | t :: ts => by rw [rebindAll, refsOf, refsOf, refs_rebind t, refsOf_rebindAll ts, List.map_append]

end

end TypeDefinition

theorem TypeDefinition.mapAll_eq (ts : List TypeDefinition) : mapAll f ts = ts.map (map f) := by
  induction ts with
  | nil => rfl
  | cons t ts ih => rw [mapAll, ih, List.map_cons]

namespace Assembly

theorem topLevel_map (a : Assembly) : (a.map f).topLevel = a.topLevel.map (TypeDefinition.map f) := by
  rw [topLevel, topLevel, map, List.flatMap_map, List.map_flatMap]
  exact List.flatMap_congr fun m _ => TypeDefinition.mapAll_eq f m.types

theorem exported_map (a : Assembly) : (a.map f).exported = a.exported.map f := by
  rw [exported, exported, map, List.flatMap_map, List.map_flatMap]
  rfl

theorem references_map (a : Assembly) : (a.map f).references = a.references.map f := by
  rw [references, references, typeRefs, typeRefs, topLevel_map, exported_map,
    ← TypeDefinition.mapAll_eq, TypeDefinition.refsOf_mapAll, List.map_append]

/-! ## Assemblies without bindings -/

/-- An assembly without bindings has no reference with one. -/
theorem detached_of_mem_references {a : Assembly} (h : a.detached = a) {t : TypeRef}
    (ht : t ∈ a.references) : t.detached = t := by
  have hrefs : a.references.map TypeRef.detached = a.references := by
    rw [← references_map]
    exact congrArg references h
  exact List.map_inj_left.1 (hrefs.trans (List.map_id _).symm) t ht

/-- An assembly without bindings has nothing to give up. -/
theorem release_of_detached {a : Assembly} (h : a.detached = a) (kept : DefinitionId → Bool) :
    a.release kept = a := by
  have hsame : TypeRef.release kept ∘ TypeRef.detached = TypeRef.detached :=
    funext (TypeRef.release_detached kept)
  rw [← h, release, detached, map_map, hsame]

end Assembly

end ApiEvolution
