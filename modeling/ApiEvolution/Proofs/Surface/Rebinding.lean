import ApiEvolution.Surface.Assembly

/-!
# Replacing references where they stand

`rebind` replaces the references of a surface and leaves descriptors and declaring types alone,
which is what binding an assembly comes to. The references of an assembly are those of its modules
(`Assembly.mem_references`), and those of a definition are among them
(`Assembly.refs_of_definitionAt?`).
-/

namespace ApiEvolution

/-- Replaces the type references of the signature and nothing else. -/
def Member.rebind (f : TypeRef → TypeRef) (m : Member) : Member :=
  { m with kind := m.kind.map f }

namespace TypeDefinition

mutual

/-- Replaces the references that `refs` lists; descriptors and declaring types stay. -/
def rebind (f : TypeRef → TypeRef) : TypeDefinition → TypeDefinition
  | ⟨d, flags, g, m, nested⟩ =>
    ⟨d, flags, g.map (·.map f), m.map (·.rebind f), rebindAll f nested⟩

def rebindAll (f : TypeRef → TypeRef) : List TypeDefinition → List TypeDefinition
  | [] => []
  | t :: rest => t.rebind f :: rebindAll f rest

end

theorem refsOf_eq (ts : List TypeDefinition) : refsOf ts = ts.flatMap refs := by
  induction ts with
  | nil => rfl
  | cons t ts ih => rw [refsOf, ih, List.flatMap_cons]

theorem rebindAll_eq (f : TypeRef → TypeRef) (ts : List TypeDefinition) :
    rebindAll f ts = ts.map (rebind f) := by
  induction ts with
  | nil => rfl
  | cons t ts ih => rw [rebindAll, ih, List.map_cons]

end TypeDefinition

/-- Replaces the references of the types, and the exported types. -/
def Module.rebind (f : TypeRef → TypeRef) (m : Module) : Module :=
  { m with types := TypeDefinition.rebindAll f m.types, exported := m.exported.map f }

/-- Replaces what `references` lists. -/
def Assembly.rebind (f : TypeRef → TypeRef) (a : Assembly) : Assembly :=
  { a with modules := a.modules.map (Module.rebind f) }

/-- Replaces one exported type. -/
def Assembly.setExported (module position : Nat) (t : TypeRef) (a : Assembly) : Assembly :=
  { a with
    modules := a.modules.modify module fun m => { m with exported := m.exported.set position t } }

/-! ## References of parts -/

/-- The references of an assembly are those of its modules. -/
theorem Assembly.mem_references {a : Assembly} {r : TypeRef} :
    r ∈ a.references ↔ ∃ m ∈ a.modules, r ∈ TypeDefinition.refsOf m.types ++ m.exported := by
  simp only [references, typeRefs, topLevel, exported, TypeDefinition.refsOf_eq, List.mem_append,
    List.mem_flatMap]
  constructor
  · rintro (⟨t, ⟨m, hm, ht⟩, hr⟩ | ⟨m, hm, hr⟩)
    · exact ⟨m, hm, .inl ⟨t, ht, hr⟩⟩
    · exact ⟨m, hm, .inr hr⟩
  · rintro ⟨m, hm, ⟨t, ht, hr⟩ | hr⟩
    · exact .inl ⟨t, ⟨m, hm, ht⟩, hr⟩
    · exact .inr ⟨m, hm, hr⟩

namespace TypeDefinition

theorem refs_of_descend {t u : TypeDefinition} {p : List Nat} (h : t.descend p = some u) {r : TypeRef}
    (hr : r ∈ u.refs) : r ∈ t.refs := by
  induction p generalizing t with
  | nil =>
    cases h
    exact hr
  | cons i p ih =>
    rw [descend] at h
    split at h
    · next v hv =>
      have hrefs := ih h
      obtain ⟨descriptor, flags, ps, ms, nested⟩ := t
      refine List.mem_append_right _ ?_
      rw [refsOf_eq]
      exact List.mem_flatMap.2 ⟨v, List.mem_of_getElem? hv, hrefs⟩
    · cases h

end TypeDefinition

theorem Assembly.refs_of_definitionAt? {a : Assembly} {p : List Nat} {t : TypeDefinition}
    (h : a.definitionAt? p = some t) {r : TypeRef} (hr : r ∈ t.refs) : r ∈ a.references := by
  cases p with
  | nil => cases h
  | cons i p =>
    obtain ⟨u, hu, hd⟩ := Option.bind_eq_some_iff.1 h
    refine List.mem_append_left _ ?_
    rw [typeRefs, TypeDefinition.refsOf_eq]
    exact List.mem_flatMap.2 ⟨u, List.mem_of_getElem? hu, TypeDefinition.refs_of_descend hd hr⟩

/-- No other reference is there after one exported type has been replaced. -/
theorem Assembly.mem_references_setExported {a : Assembly} {module position : Nat} {t r : TypeRef}
    (hr : r ∈ (a.setExported module position t).references) : r ∈ a.references ∨ r = t := by
  obtain ⟨m, hm, hr⟩ := mem_references.1 hr
  obtain ⟨i, hi⟩ := List.mem_iff_getElem?.1 hm
  rw [setExported, List.getElem?_modify] at hi
  obtain ⟨n, hn, rfl⟩ := Option.map_eq_some_iff.1 hi
  have hmem := List.mem_of_getElem? hn
  split at hr
  · rcases List.mem_append.1 hr with hr | hr
    · exact .inl (mem_references.2 ⟨n, hmem, List.mem_append_left _ hr⟩)
    · refine (List.mem_or_eq_of_mem_set hr).imp_left fun hr => ?_
      exact mem_references.2 ⟨n, hmem, List.mem_append_right _ hr⟩
  · exact .inl (mem_references.2 ⟨n, hmem, hr⟩)

end ApiEvolution
