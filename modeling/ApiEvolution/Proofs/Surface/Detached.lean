import ApiEvolution.Proofs.Surface.Declared
import ApiEvolution.Proofs.Surface.Shape

/-!
# Copies without bindings

The detached copy of a surface shows what there is apart from bindings. A reference and its copy
have one path, and what is looked up by name is found at the same place in an assembly and in its
copy (`Assembly.find?_detached`, `Assembly.definitionAt?_detached`). Binding references and giving
them up leaves the copy as it is (`Assembly.map_rebind`, `Assembly.detached_release`).
-/

namespace ApiEvolution

/-! ## References -/

mutual

theorem TypeRef.path_detached : (t : TypeRef) → t.detached.path = t.path
  | .mk space name scope _ => congrArg ((space, name) :: ·) (Scope.path_detached scope)

theorem Scope.path_detached : (s : Scope) → s.detached.path = s.path
  | .assembly _ => rfl
  | .nested d => TypeRef.path_detached d

end

mutual

theorem TypeRef.assembly_detached : (t : TypeRef) → t.detached.assembly = t.assembly
  | .mk _ _ scope _ => Scope.assemblyName_detached scope

theorem Scope.assemblyName_detached : (s : Scope) → s.detached.assemblyName = s.assemblyName
  | .assembly _ => rfl
  | .nested d => TypeRef.assembly_detached d

end

theorem Binding.detached_detached (b : Binding) : b.detached.detached = b.detached := by
  cases b <;> rfl

mutual

theorem TypeRef.detached_detached : (t : TypeRef) → t.detached.detached = t.detached
  | .mk space name scope b => by
    rw [TypeRef.detached, TypeRef.detached, Scope.detached_detached scope, b.detached_detached]

theorem Scope.detached_detached : (s : Scope) → s.detached.detached = s.detached
  | .assembly _ => rfl
  | .nested d => congrArg Scope.nested (TypeRef.detached_detached d)

end

theorem Binding.detached_release (kept : DefinitionId → Bool) (b : Binding) :
    (b.release kept).detached = b.detached := by
  cases b with
  | resolved id d =>
    rw [Binding.release]
    split <;> rfl
  | _ => rfl

/-- What is still bound was bound before. -/
theorem Binding.eq_of_release {kept : DefinitionId → Bool} {b : Binding} {id : DefinitionId}
    {d : TypeRef} (h : b.release kept = .resolved id d) : b = .resolved id d := by
  cases b with
  | resolved id' d' =>
    rw [release] at h
    split at h
    · exact h
    · cases h
  | _ => cases h

mutual

theorem TypeRef.detached_release (kept : DefinitionId → Bool) : (t : TypeRef) →
    (t.release kept).detached = t.detached
  | .mk space name scope b => by
    rw [TypeRef.release, TypeRef.detached, TypeRef.detached, Scope.detached_release kept scope,
      b.detached_release kept]

theorem Scope.detached_release (kept : DefinitionId → Bool) : (s : Scope) →
    (s.release kept).detached = s.detached
  | .assembly _ => rfl
  | .nested d => congrArg Scope.nested (TypeRef.detached_release kept d)

end

theorem TypeRef.path_release (kept : DefinitionId → Bool) (t : TypeRef) :
    (t.release kept).path = t.path := by
  rw [← TypeRef.path_detached, TypeRef.detached_release, TypeRef.path_detached]

theorem Scope.path_release (kept : DefinitionId → Bool) (s : Scope) :
    (s.release kept).path = s.path := by
  rw [← Scope.path_detached, Scope.detached_release, Scope.path_detached]

mutual

theorem TypeRef.fullName_eq_of_path : (t u : TypeRef) → t.path = u.path → t.fullName = u.fullName
  | .mk space name scope _, .mk space' name' scope' _, h => by
    obtain ⟨hname, hscope⟩ := List.cons.inj h
    obtain ⟨rfl, rfl⟩ := Prod.mk.inj hname
    exact Scope.qualify_eq_of_path space name scope scope' hscope

theorem Scope.qualify_eq_of_path (space name : String) : (s s' : Scope) → s.path = s'.path →
    s.qualify space name = s'.qualify space name
  | .assembly _, .assembly _, _ => rfl
  | .assembly _, .nested d, h => by
    rw [Scope.path, Scope.path, TypeRef.path_eq] at h
    cases h
  | .nested d, .assembly _, h => by
    rw [Scope.path, Scope.path, TypeRef.path_eq] at h
    cases h
  | .nested d, .nested e, h => congrArg (· ++ "+" ++ name) (TypeRef.fullName_eq_of_path d e h)

end

mutual

theorem TypeRef.isDefinitionChain_detached : (t : TypeRef) →
    t.detached.isDefinitionChain = t.isDefinitionChain
  | .mk space name scope b => by
    have hscope := Scope.isDefinitionChain_detached scope
    cases b with
    | definition => exact hscope
    | _ => rfl

theorem Scope.isDefinitionChain_detached : (s : Scope) →
    s.detached.isDefinitionChain = s.isDefinitionChain
  | .assembly _ => rfl
  | .nested d => TypeRef.isDefinitionChain_detached d

end

namespace TypeRef

@[simp] theorem space_detached (t : TypeRef) : t.detached.space = t.space := by
  cases t
  rfl

@[simp] theorem name_detached (t : TypeRef) : t.detached.name = t.name := by
  cases t
  rfl

/-- A reference is the same with another binding, apart from bindings. -/
theorem detached_withBinding {t : TypeRef} (ht : t.isBound = false) {b : Binding}
    (hb : b.detached = .unbound) : (t.withBinding b).detached = t.detached := by
  obtain ⟨space, name, scope, binding⟩ := t
  cases binding with
  | unbound => rw [withBinding, detached, detached, hb]; rfl
  | _ => cases ht

end TypeRef

/-! ## Flat references -/

/-- Nothing is bound but the reference itself. -/
def TypeRef.Flat (t : TypeRef) : Prop :=
  t.scope.detached = t.scope

theorem TypeRef.flat_detached (t : TypeRef) : t.detached.Flat := by
  obtain ⟨_, _, scope, _⟩ := t
  exact Scope.detached_detached scope

theorem TypeRef.Flat.release_scope {t : TypeRef} (h : t.Flat) (kept : DefinitionId → Bool) :
    t.scope.release kept = t.scope := by
  have hscope : t.scope.detached = t.scope := h
  rw [← hscope, Scope.release_detached]

theorem TypeRef.Flat.release {t : TypeRef} (h : t.Flat) (kept : DefinitionId → Bool) :
    (t.release kept).Flat := by
  obtain ⟨space, name, scope, binding⟩ := t
  have hsame : scope.release kept = scope := h.release_scope kept
  exact (congrArg Scope.detached hsame).trans (Eq.trans h hsame.symm)

theorem TypeRef.Flat.withBinding {t : TypeRef} (h : t.Flat) (b : Binding) : (t.withBinding b).Flat :=
  h

/-- A flat reference stays as it is if what it is bound to is kept. -/
theorem TypeRef.Flat.release_eq {kept : DefinitionId → Bool} {t : TypeRef} (h : t.Flat)
    (ht : ∀ id, t.target? = some id → kept id) :
    t.release kept = t := by
  obtain ⟨space, name, scope, binding⟩ := t
  have hscope : scope.release kept = scope := h.release_scope kept
  have hbinding : binding.release kept = binding := by
    cases binding with
    | resolved id d => exact if_pos (ht id rfl)
    | _ => rfl
  rw [TypeRef.release, hscope, hbinding]

/-! ## Binding and giving up -/

theorem Member.map_rebind {f g : TypeRef → TypeRef} (h : ∀ r, g (f r) = g r) (m : Member) :
    (m.rebind f).map g = m.map g := by
  have hgf : g ∘ f = g := funext h
  rw [map, rebind, MemberKind.map_map, hgf, map]

namespace TypeDefinition

variable {f g : TypeRef → TypeRef}

mutual

theorem map_rebind (h : ∀ r, g (f r) = g r) : (t : TypeDefinition) → (t.rebind f).map g = t.map g
  | ⟨d, flags, ps, ms, nested⟩ => by
    have hgf : g ∘ f = g := funext h
    have hmembers : (ms.map (·.rebind f)).map (·.map g) = ms.map (·.map g) := by
      rw [List.map_map]
      exact List.map_congr_left fun m _ => Member.map_rebind h m
    rw [rebind, map, map, GenericParameter.list_map_map, hgf, hmembers, mapAll_rebindAll h nested]

theorem mapAll_rebindAll (h : ∀ r, g (f r) = g r) : (ts : List TypeDefinition) →
    mapAll g (rebindAll f ts) = mapAll g ts
  | [] => rfl
  | t :: ts => by rw [rebindAll, mapAll, mapAll, map_rebind h t, mapAll_rebindAll h ts]

end

end TypeDefinition

namespace Assembly

/-- Replacing references by ones that are replaced in the same way does not show. -/
theorem map_rebind {f g : TypeRef → TypeRef} (h : ∀ r, g (f r) = g r) (a : Assembly) :
    (a.rebind f).map g = a.map g := by
  rw [map, map, rebind, List.map_map]
  congr 1
  refine List.map_congr_left fun m _ => ?_
  have hexported : (m.exported.map f).map g = m.exported.map g := by
    rw [List.map_map]
    exact List.map_congr_left fun r _ => h r
  rw [Function.comp_apply, Module.map, Module.rebind, TypeDefinition.mapAll_rebindAll h, hexported,
    Module.map]

theorem detached_detached (a : Assembly) : a.detached.detached = a.detached := by
  rw [detached, detached, map_map, show TypeRef.detached ∘ TypeRef.detached = TypeRef.detached from
    funext TypeRef.detached_detached]

theorem detached_release (kept : DefinitionId → Bool) (a : Assembly) :
    (a.release kept).detached = a.detached := by
  have hsame : TypeRef.detached ∘ TypeRef.release kept = TypeRef.detached :=
    funext (TypeRef.detached_release kept)
  rw [detached, release, map_map, hsame, detached]

/-- Binding an exported type does not show in the copy. -/
theorem detached_setExported {a : Assembly} {m : Module} {module position : Nat} {t : TypeRef}
    (hm : a.detached.modules[module]? = some m) (ht : m.exported[position]? = some t.detached) :
    (a.setExported module position t).detached = a.detached := by
  have hmodules : (a.modules.modify module fun n =>
      { n with exported := n.exported.set position t }).map (Module.map TypeRef.detached) =
        a.modules.map (Module.map TypeRef.detached) := by
    refine List.ext_getElem? fun i => ?_
    rw [List.getElem?_map, List.getElem?_modify, List.getElem?_map]
    split
    · next hi =>
      subst hi
      cases hn : a.modules[module]? with
      | none => rfl
      | some n =>
        obtain rfl : n.map TypeRef.detached = m := by
          rw [detached, map, List.getElem?_map, hn] at hm
          exact Option.some.inj hm
        have hexported : (n.exported.set position t).map TypeRef.detached =
            n.exported.map TypeRef.detached := by
          obtain ⟨hlt, hself⟩ := List.getElem?_eq_some_iff.1 ht
          rw [List.map_set, ← hself]
          exact List.set_getElem_self hlt
        exact congrArg (fun e => some { n.map TypeRef.detached with exported := e }) hexported
    · exact congrArg (Option.map _) Option.map_id'
  exact congrArg (Assembly.mk a.name) hmodules

end Assembly

/-- An assembly without bindings is the copy of what it becomes when its references are bound. -/
theorem Replaced.detached_eq {R : TypeRef → TypeRef → Prop} {a b : Assembly} (h : Replaced R a b)
    (ha : a.detached = a) (hR : ∀ r r', R r r' → r'.detached = r) : b.detached = a := by
  have hsame : a.rebind TypeRef.detached = b.rebind TypeRef.detached :=
    h.replace_eq fun r r' hr => by rw [← hR r r' hr, TypeRef.detached_detached]
  have hmap (c : Assembly) : (c.rebind TypeRef.detached).detached = c.detached :=
    Assembly.map_rebind TypeRef.detached_detached c
  rw [← hmap, ← hsame, hmap, ha]

/-! ## Looking up in a copy -/

namespace TypeDefinition

theorem nestedTypes_detached (t : TypeDefinition) :
    t.detached.nestedTypes = t.nestedTypes.map detached := by
  cases t
  exact mapAll_eq _ _

theorem descriptor_detached (t : TypeDefinition) :
    t.detached.descriptor = t.descriptor.detached := by
  cases t
  rfl

theorem members_detached (t : TypeDefinition) :
    t.detached.members = t.members.map (Member.map TypeRef.detached) := by
  cases t
  rfl

theorem shaping_detached : Shaping detached :=
  ⟨fun space name t => by simp [isNamed, descriptor_detached], nestedTypes_detached⟩

end TypeDefinition

def Found.detached (f : Found) : Found :=
  ⟨f.position, f.type.detached⟩

theorem Found.nested?_detached (f : Found) (space name : String) :
    f.detached.nested? space name = (f.nested? space name).map detached :=
  TypeDefinition.shaping_detached.nested? f space name

/-- In the copy of a type, the copy of what is nested in it is found. -/
theorem Found.nested?_copy {f g : Found} {space name : String}
    (h : f.nested? space name = some g) :
    Found.nested? ⟨f.position, f.type.detached⟩ space name = some g.detached := by
  refine (f.nested?_detached space name).trans ?_
  rw [h, Option.map_some]

namespace Assembly

theorem topLevel_detached (a : Assembly) :
    a.detached.topLevel = a.topLevel.map TypeDefinition.detached :=
  topLevel_map _ a

theorem find?_detached (a : Assembly) (space name : String) :
    a.detached.find? space name = (a.find? space name).map Found.detached :=
  TypeDefinition.shaping_detached.find? a.topLevel_detached space name

theorem definitionAt?_detached (a : Assembly) (p : List Nat) :
    a.detached.definitionAt? p = (a.definitionAt? p).map TypeDefinition.detached :=
  TypeDefinition.shaping_detached.definitionAt? a.topLevel_detached p

theorem findExported?_detached (a : Assembly) (space name : String) :
    a.detached.findExported? space name = (a.findExported? space name).map TypeRef.detached := by
  have hname : ((fun t : TypeRef => t.space == space && t.name == name) ∘ TypeRef.detached) =
      fun t => t.space == space && t.name == name := by
    funext t
    simp
  rw [findExported?, findExported?, detached, exported_map, List.find?_map, hname]

end Assembly

end ApiEvolution
