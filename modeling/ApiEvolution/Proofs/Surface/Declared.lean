import ApiEvolution.Proofs.Identity.Definitions
import ApiEvolution.Proofs.Surface.Passage
import ApiEvolution.Surface.Declaration

/-!
# Declared assemblies

All types of a declared assembly are `Declared`: definitions of some declaration in a scope of
definitions. An assembly is `Pristine` if it is declared, nothing is bound in it, and the definition
descriptors among its references are chains of definitions. A declared assembly is without bindings
if its references are (`AssemblyDeclaration.detached_build`).
-/

namespace ApiEvolution

/-! ## Definitions of declarations -/

theorem MemberDeclaration.refs_build (t u : TypeRef) (m : MemberDeclaration) :
    (m.build t).refs = (m.build u).refs := by
  cases m <;> rfl

theorem MemberDeclaration.declaringType_build (t : TypeRef) (m : MemberDeclaration) :
    (m.build t).declaringType = t := by
  cases m <;> rfl

namespace TypeDeclaration

theorem buildAll_eq (scope : Scope) (ds : List TypeDeclaration) :
    buildAll scope ds = ds.map (build scope) := by
  induction ds with
  | nil => rfl
  | cons d ds ih => rw [buildAll, ih, List.map_cons]

theorem descriptor_build (scope : Scope) (d : TypeDeclaration) :
    (d.build scope).descriptor = .mk d.space d.name scope .definition := by
  cases d
  rfl

theorem nestedTypes_build (scope : Scope) (d : TypeDeclaration) :
    (d.build scope).nestedTypes = d.nested.map (build (.nested (d.build scope).descriptor)) := by
  rw [← buildAll_eq, descriptor_build]
  cases d
  rfl

theorem isNamed_build (space name : String) (scope : Scope) (d : TypeDeclaration) :
    (d.build scope).isNamed space name = (d.space == space && d.name == name) := by
  rw [TypeDefinition.isNamed, descriptor_build]
  rfl

mutual

/-- What a type refers to does not depend on where it is declared. -/
theorem refs_build : (scope scope' : Scope) → (d : TypeDeclaration) →
    (d.build scope).refs = (d.build scope').refs
  | scope, scope', ⟨space, name, flags, gs, ms, nested⟩ => by
    have hmembers (t u : TypeRef) : (ms.map (MemberDeclaration.build t)).flatMap Member.refs =
        (ms.map (MemberDeclaration.build u)).flatMap Member.refs := by
      rw [List.flatMap_map, List.flatMap_map]
      exact List.flatMap_congr fun m _ => m.refs_build t u
    rw [build, build, TypeDefinition.refs, TypeDefinition.refs,
      hmembers _ (.mk space name scope' .definition),
      refsOf_buildAll _ (.nested (.mk space name scope' .definition)) nested]

theorem refsOf_buildAll : (scope scope' : Scope) → (ds : List TypeDeclaration) →
    TypeDefinition.refsOf (buildAll scope ds) = TypeDefinition.refsOf (buildAll scope' ds)
  | _, _, [] => rfl
  | scope, scope', d :: ds => by
    rw [buildAll, buildAll, TypeDefinition.refsOf, TypeDefinition.refsOf, refs_build scope scope' d,
      refsOf_buildAll scope scope' ds]

end

mutual

/-- Replacing descriptors by themselves is replacing the references only. -/
theorem map_build {f : TypeRef → TypeRef} (hf : ∀ t : TypeRef, t.isDefinitionChain → f t = t) :
    (scope : Scope) → scope.isDefinitionChain → (d : TypeDeclaration) →
    (d.build scope).map f = (d.build scope).rebind f
  | scope, hscope, ⟨space, name, flags, gs, ms, nested⟩ => by
    have hdescriptor := hf (.mk space name scope .definition) hscope
    have hmembers : (ms.map (MemberDeclaration.build (.mk space name scope .definition))).map
        (Member.map f) = (ms.map (MemberDeclaration.build (.mk space name scope .definition))).map
          (Member.rebind f) := by
      rw [List.map_map, List.map_map]
      refine List.map_congr_left fun m _ => ?_
      rw [Function.comp_apply, Member.map, m.declaringType_build, hdescriptor, Function.comp_apply,
        Member.rebind]
      cases m <;> rfl
    have hnested := mapAll_buildAll hf (.nested (.mk space name scope .definition)) hscope nested
    rw [build, TypeDefinition.map, TypeDefinition.rebind, hdescriptor, hnested]
    exact congrArg (TypeDefinition.mk _ _ _ · _) hmembers

theorem mapAll_buildAll {f : TypeRef → TypeRef} (hf : ∀ t : TypeRef, t.isDefinitionChain → f t = t) :
    (scope : Scope) → scope.isDefinitionChain → (ds : List TypeDeclaration) →
    TypeDefinition.mapAll f (buildAll scope ds) = TypeDefinition.rebindAll f (buildAll scope ds)
  | _, _, [] => rfl
  | scope, hscope, d :: ds => by
    rw [buildAll, TypeDefinition.mapAll, TypeDefinition.rebindAll, map_build hf scope hscope d,
      mapAll_buildAll hf scope hscope ds]

end

end TypeDeclaration

/-- The definition of some declaration, in a scope of definitions. -/
def TypeDefinition.Declared (t : TypeDefinition) : Prop :=
  ∃ (d : TypeDeclaration) (scope : Scope), scope.isDefinitionChain ∧ t = d.build scope

namespace TypeDefinition.Declared

variable {t : TypeDefinition}

theorem descriptor (h : t.Declared) : t.descriptor.isDefinitionChain := by
  obtain ⟨d, scope, hscope, rfl⟩ := h
  rw [TypeDeclaration.descriptor_build]
  exact hscope

theorem declaringType (h : t.Declared) {m : Member} (hm : m ∈ t.members) :
    m.declaringType.isDefinitionChain := by
  obtain ⟨⟨space, name, flags, gs, ms, nested⟩, scope, hscope, rfl⟩ := h
  obtain ⟨m, -, rfl⟩ := List.mem_map.1 hm
  rw [m.declaringType_build]
  exact hscope

theorem nestedTypes (h : t.Declared) {u : TypeDefinition} (hu : u ∈ t.nestedTypes) : u.Declared := by
  have hdescriptor := h.descriptor
  obtain ⟨d, scope, hscope, rfl⟩ := h
  rw [TypeDeclaration.nestedTypes_build] at hu
  obtain ⟨e, -, rfl⟩ := List.mem_map.1 hu
  exact ⟨e, .nested (d.build scope).descriptor, hdescriptor, rfl⟩

theorem descend (h : t.Declared) {p : List Nat} {u : TypeDefinition} (hu : t.descend p = some u) :
    u.Declared := by
  induction p generalizing t with
  | nil =>
    cases hu
    exact h
  | cons i p ih =>
    rw [TypeDefinition.descend] at hu
    split at hu
    · next v hv => exact ih (h.nestedTypes (List.mem_of_getElem? hv)) hu
    · cases hu

end TypeDefinition.Declared

/-! ## Definitions of one declaration -/

namespace TypeDefinition

/-- Two definitions of one declaration, in scopes of one path. -/
def Twins (t u : TypeDefinition) : Prop :=
  ∃ (d : TypeDeclaration) (scope scope' : Scope), scope.path = scope'.path ∧ t = d.build scope ∧
    u = d.build scope'

theorem Declared.twins {t : TypeDefinition} (h : t.Declared) : t.Twins t := by
  obtain ⟨d, scope, -, rfl⟩ := h
  exact ⟨d, scope, scope, rfl, rfl, rfl⟩

namespace Twins

variable {t u : TypeDefinition}

theorem symm (h : t.Twins u) : u.Twins t := by
  obtain ⟨d, scope, scope', hpath, rfl, rfl⟩ := h
  exact ⟨d, scope', scope, hpath.symm, rfl, rfl⟩

theorem path (h : t.Twins u) : t.descriptor.path = u.descriptor.path := by
  obtain ⟨d, scope, scope', hpath, rfl, rfl⟩ := h
  rw [TypeDeclaration.descriptor_build, TypeDeclaration.descriptor_build, TypeRef.path, TypeRef.path,
    hpath]

end Twins

/-- The first type of a name and its position do not depend on where types are declared. -/
theorem first?_build (space name : String) (scope : Scope) (ds : List TypeDeclaration) :
    first? space name (ds.map (TypeDeclaration.build scope)) =
      (ds.zipIdx.find? fun d => d.1.space == space && d.1.name == name).map fun d =>
        (d.2, d.1.build scope) := by
  have hname : ((fun t : TypeDefinition × Nat => t.1.isNamed space name) ∘
      Prod.map (TypeDeclaration.build scope) id) =
        fun d => d.1.space == space && d.1.name == name := by
    funext d
    exact TypeDeclaration.isNamed_build space name scope d.1
  rw [first?, List.zipIdx_map, List.find?_map, hname, Option.map_map]
  rfl

/-- Nested types of one name are twins if the types that they are nested in are. -/
theorem Twins.first?_nestedTypes {t u : TypeDefinition} (h : t.Twins u) {space name : String} {i : Nat}
    {v : TypeDefinition} (hv : first? space name t.nestedTypes = some (i, v)) :
    ∃ v', first? space name u.nestedTypes = some (i, v') ∧ v.Twins v' := by
  have hpath := h.path
  obtain ⟨d, scope, scope', -, rfl, rfl⟩ := h
  rw [TypeDeclaration.nestedTypes_build, first?_build] at hv ⊢
  obtain ⟨e, he, hv⟩ := Option.map_eq_some_iff.1 hv
  obtain ⟨rfl, rfl⟩ := Prod.mk.inj hv
  rw [he]
  exact ⟨_, rfl, e.1, .nested (d.build scope).descriptor, .nested (d.build scope').descriptor, hpath,
    rfl, rfl⟩

theorem first?_type (space name : String) (ts : List TypeDefinition) :
    (first? space name ts).map (·.2) = ts.find? (isNamed space name) := by
  have hzip : ts.find? (isNamed space name) =
      (ts.zipIdx.map (·.1)).find? (isNamed space name) := by
    rw [List.zipIdx_map_fst]
  rw [hzip, List.find?_map, first?, Option.map_map]
  rfl

end TypeDefinition

/-! ## Assemblies -/

theorem Assembly.find?_type (a : Assembly) (space name : String) :
    (a.find? space name).map (·.type) = a.topLevel.find? (TypeDefinition.isNamed space name) := by
  rw [← TypeDefinition.first?_type, find?, Option.map_map]
  rfl

theorem AssemblyDeclaration.topLevel_build (d : AssemblyDeclaration) : d.build.topLevel =
    (d.modules.flatMap (·.types)).map (TypeDeclaration.build (.assembly d.name)) := by
  rw [Assembly.topLevel, build, List.flatMap_map, List.map_flatMap]
  exact List.flatMap_congr fun m _ => TypeDeclaration.buildAll_eq _ _

/-- What the types of an assembly refer to does not depend on which assembly it is. -/
theorem AssemblyDeclaration.mem_typeRefs_build {d : AssemblyDeclaration} (scope : Scope)
    {r : TypeRef} : r ∈ d.build.typeRefs ↔
      ∃ e ∈ d.modules.flatMap (·.types), r ∈ (e.build scope).refs := by
  rw [Assembly.typeRefs, topLevel_build, TypeDefinition.refsOf_eq, List.flatMap_map,
    List.mem_flatMap]
  constructor
  · rintro ⟨e, he, hr⟩
    rw [e.refs_build _ scope] at hr
    exact ⟨e, he, hr⟩
  · rintro ⟨e, he, hr⟩
    rw [e.refs_build scope (.assembly d.name)] at hr
    exact ⟨e, he, hr⟩

theorem AssemblyDeclaration.exported_build (d : AssemblyDeclaration) :
    d.build.exported = d.modules.flatMap (·.exported) := by
  rw [Assembly.exported, build, List.flatMap_map]

mutual

theorem TypeRef.detached_of_isDefinitionChain : (t : TypeRef) → t.isDefinitionChain → t.detached = t
  | .mk space name scope .definition, h => by
    rw [TypeRef.detached, Scope.detached_of_isDefinitionChain scope h]
    rfl

theorem Scope.detached_of_isDefinitionChain : (s : Scope) → s.isDefinitionChain → s.detached = s
  | .assembly _, _ => rfl
  | .nested d, h => congrArg Scope.nested (TypeRef.detached_of_isDefinitionChain d h)

end

/-- A declared assembly is without bindings if its references are. -/
theorem AssemblyDeclaration.detached_build {d : AssemblyDeclaration}
    (h : ∀ r ∈ d.build.references, r.detached = r) : d.build.detached = d.build := by
  have hmap : d.build.detached = d.build.rebind TypeRef.detached := by
    rw [Assembly.detached, Assembly.map, Assembly.rebind, build]
    congr 1
    rw [List.map_map, List.map_map]
    refine List.map_congr_left fun m _ => ?_
    simp only [Function.comp_apply, Module.map, Module.rebind,
      TypeDeclaration.mapAll_buildAll TypeRef.detached_of_isDefinitionChain (.assembly d.name) rfl]
  rw [hmap, Assembly.rebind_congr h]
  exact d.build.rebind_id

/-- An assembly as a declaration makes it, with nothing bound in it. -/
structure Assembly.Built (a : Assembly) : Prop where
  declared : ∃ d : AssemblyDeclaration, d.build = a
  unbound : a.detached = a

namespace Assembly.Built

variable {a : Assembly}

theorem topLevel (h : a.Built) {t : TypeDefinition} (ht : t ∈ a.topLevel) : t.Declared := by
  obtain ⟨d, rfl⟩ := h.declared
  rw [AssemblyDeclaration.topLevel_build] at ht
  obtain ⟨e, -, rfl⟩ := List.mem_map.1 ht
  exact ⟨e, _, rfl, rfl⟩

theorem definitionAt? (h : a.Built) {p : List Nat} {t : TypeDefinition}
    (ht : a.definitionAt? p = some t) : t.Declared := by
  cases p with
  | nil => cases ht
  | cons i p =>
    obtain ⟨u, hu, hd⟩ := Option.bind_eq_some_iff.1 ht
    exact (h.topLevel (List.mem_of_getElem? hu)).descend hd

end Assembly.Built

/-- An assembly as it was declared: nothing is bound in it, and definition descriptors among its
references are chains of definitions. -/
structure Assembly.Pristine (a : Assembly) : Prop where
  declared : ∃ d : AssemblyDeclaration, d.build = a
  unbound : a.detached = a
  chains : ∀ r ∈ a.references, r.isDefinition → r.isDefinitionChain

namespace Assembly.Pristine

variable {a : Assembly}

theorem built (h : a.Pristine) : a.Built :=
  ⟨h.declared, h.unbound⟩

theorem topLevel (h : a.Pristine) {t : TypeDefinition} (ht : t ∈ a.topLevel) : t.Declared :=
  h.built.topLevel ht

theorem definitionAt? (h : a.Pristine) {p : List Nat} {t : TypeDefinition}
    (ht : a.definitionAt? p = some t) : t.Declared :=
  h.built.definitionAt? ht

/-- Another declared assembly is pristine if it has no other references, apart from unbound ones. -/
theorem build (h : a.Pristine) {d : AssemblyDeclaration} (hrefs : ∀ r ∈ d.build.references,
    r ∈ a.references ∨ r.detached = r ∧ r.isDefinition = false) : d.build.Pristine := by
  refine ⟨⟨d, rfl⟩, AssemblyDeclaration.detached_build fun r hr => ?_, fun r hr hdef => ?_⟩
  · rcases hrefs r hr with hr | ⟨hr, -⟩
    · exact Assembly.detached_of_mem_references h.unbound hr
    · exact hr
  · rcases hrefs r hr with hr | ⟨-, hno⟩
    · exact h.chains r hr hdef
    · rw [hdef] at hno
      cases hno

end Assembly.Pristine

end ApiEvolution
