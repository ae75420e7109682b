import Mathlib.Data.List.Nodup
import ApiEvolution.Proofs.Surface.Declared
import ApiEvolution.Proofs.Surface.Shape
import ApiEvolution.Proofs.Universe.Lookup

/-!
# References to declared types

A declaration goes from each type to the types nested in it when it hands out scopes; a lookup goes
the other way, from a reference to its declaring type. The two meet: in a declared assembly whose
types are told apart by their names (`Assembly.NamesApart`), a reference made from the descriptor of
a type leads to that type, wherever it stands.

What holds of a type at its position is `Assembly.AtHome`. It passes from a type to the types nested
in it (`AtHome.step`), so it holds of all of them.
-/

namespace ApiEvolution

/-! ## Names that tell types apart -/

namespace TypeDefinition

/-- Namespace and name. -/
def tag (t : TypeDefinition) : String × String :=
  (t.descriptor.space, t.descriptor.name)

theorem isNamed_iff_tag {t u : TypeDefinition} :
    u.isNamed t.descriptor.space t.descriptor.name ↔ u.tag = t.tag := by
  simp only [isNamed, tag, Bool.and_eq_true, beq_iff_eq, Prod.mk.injEq]

/-- A type whose name no other type of the list has is the first one of its name. -/
theorem first?_of_nodup {ts : List TypeDefinition} (h : (ts.map tag).Nodup) {i : Nat}
    {t : TypeDefinition} (ht : ts[i]? = some t) :
    first? t.descriptor.space t.descriptor.name ts = some (i, t) := by
  obtain ⟨hi, rfl⟩ := List.getElem?_eq_some_iff.1 ht
  have hfind : (ts.zipIdx.find? fun u =>
      u.1.isNamed ts[i].descriptor.space ts[i].descriptor.name) = some (ts[i], i) := by
    refine List.find?_eq_some_iff_getElem.2 ⟨isNamed_iff_tag.2 rfl, i, ?_, ?_, fun j hj => ?_⟩
    · rwa [List.length_zipIdx]
    · rw [List.getElem_zipIdx, Nat.zero_add]
    · rw [List.getElem_zipIdx, Bool.not_eq_true', Bool.eq_false_iff, Ne, isNamed_iff_tag]
      intro htag
      have hj' : j < ts.length := Nat.lt_trans hj hi
      have hsame : (ts.map tag)[j]? = (ts.map tag)[i]? := by
        rw [List.getElem?_map, List.getElem?_map, List.getElem?_eq_getElem hj', Option.map_some,
          htag, List.getElem?_eq_getElem hi, Option.map_some]
      have hij := (List.getElem?_inj (by rwa [List.length_map]) h).1 hsame
      omega
  rw [first?, hfind]
  rfl

end TypeDefinition

/-- Types that stand side by side have different names. -/
structure Assembly.NamesApart (a : Assembly) : Prop where
  topLevel : (a.topLevel.map TypeDefinition.tag).Nodup
  nested : ∀ t ∈ a.allTypes, (t.nestedTypes.map TypeDefinition.tag).Nodup

/-! ## References are looked up by name -/

theorem AssemblyName.agrees_refl (n : AssemblyName) : n.agrees n true := by
  simp [agrees, Text.sameLetters_refl]

mutual

/-- A lookup does not see what references are bound to. -/
theorem Assembly.locate_detached (a : Assembly) : (t : TypeRef) → a.locate t.detached = a.locate t
  | .mk space name scope _ => Assembly.locateIn_detached a space name scope

theorem Assembly.locateIn_detached (a : Assembly) (space name : String) : (s : Scope) →
    a.locateIn space name s.detached = a.locateIn space name s
  | .assembly _ => rfl
  | .nested d => by
    rw [Scope.detached, locateIn, locateIn, Assembly.locate_detached a d]

end

theorem Assembly.locate_toReference (a : Assembly) : (t : TypeRef) →
    a.locate t.toReference = a.locate t
  | .mk space name scope _ => a.locateIn_detached space name scope

/-! ## What a declaration makes -/

theorem GenericDeclaration.index_buildAll (gs : List GenericDeclaration) :
    (buildAll gs).map (·.index) = List.range (buildAll gs).length := by
  rw [buildAll, List.map_map, List.length_map, List.length_zipIdx, List.range_eq_range']
  exact List.zipIdx_map_snd 0 gs

/-- The generic parameters of the type, and those of each of its methods. -/
def TypeDefinition.parameterLists (t : TypeDefinition) : List (List GenericParameter) :=
  t.genericParameters :: t.members.filterMap fun m => m.method?.map (·.genericParameters)

namespace TypeDeclaration

variable (scope : Scope) (d : TypeDeclaration)

theorem declaringType_of_mem_build {m : Member} (hm : m ∈ (d.build scope).members) :
    m.declaringType = (d.build scope).descriptor := by
  obtain ⟨space, name, flags, gs, ms, nested⟩ := d
  obtain ⟨m, -, rfl⟩ := List.mem_map.1 hm
  exact m.declaringType_build _

/-- In every list of generic parameters they are numbered from zero. -/
theorem index_of_mem_parameterLists {ps : List GenericParameter}
    (hps : ps ∈ (d.build scope).parameterLists) : ps.map (·.index) = List.range ps.length := by
  have hbuilt : ∃ gs, ps = GenericDeclaration.buildAll gs := by
    obtain ⟨space, name, flags, gs, ms, nested⟩ := d
    rcases List.mem_cons.1 hps with rfl | hps
    · exact ⟨gs, rfl⟩
    · obtain ⟨_, hm, hps⟩ := List.mem_filterMap.1 hps
      obtain ⟨m, -, rfl⟩ := List.mem_map.1 hm
      cases m with
      | method m => exact ⟨m.generics, (Option.some.inj hps).symm⟩
      | _ => cases hps
  obtain ⟨gs, rfl⟩ := hbuilt
  exact GenericDeclaration.index_buildAll gs

end TypeDeclaration

/-! ## Types at their positions -/

/-- The type is listed, was declared in its scope, and its descriptor leads to its position. -/
structure Assembly.AtHome (a : Assembly) (p : List Nat) (t : TypeDefinition) : Prop where
  listed : t ∈ a.allTypes
  declared : ∃ (d : TypeDeclaration) (scope : Scope), scope.assemblyName = a.name ∧
    t = d.build scope
  located : a.locate t.descriptor = some ⟨p, t⟩

namespace Assembly.AtHome

variable {a : Assembly} {p : List Nat} {t : TypeDefinition}

theorem topLevel {d : AssemblyDeclaration} (h : d.build.NamesApart) {i : Nat}
    (ht : d.build.topLevel[i]? = some t) : d.build.AtHome [i] t := by
  have hmem := List.mem_of_getElem? ht
  have hfirst := TypeDefinition.first?_of_nodup h.topLevel ht
  obtain ⟨e, rfl⟩ : ∃ e : TypeDeclaration, e.build (.assembly d.name) = t := by
    rw [AssemblyDeclaration.topLevel_build] at hmem
    obtain ⟨e, -, he⟩ := List.mem_map.1 hmem
    exact ⟨e, he⟩
  refine ⟨TypeDefinition.subset_walk _ hmem, ⟨e, .assembly d.name, rfl, rfl⟩, ?_⟩
  have hagrees : d.name.agrees d.build.name true := AssemblyName.agrees_refl d.name
  rw [TypeDeclaration.descriptor_build] at hfirst ⊢
  rw [locate, locateIn, if_pos hagrees, find?]
  exact congrArg (Option.map _) hfirst

/-- What is nested in a type that is at home is at home. -/
theorem step (h : a.NamesApart) (ht : a.AtHome p t) {i : Nat} {u : TypeDefinition}
    (hu : t.nestedTypes[i]? = some u) : a.AtHome (p ++ [i]) u := by
  have hmem := List.mem_of_getElem? hu
  have hfirst := TypeDefinition.first?_of_nodup (h.nested t ht.listed) hu
  have hlocated := ht.located
  have hlisted := TypeDefinition.nestedTypes_subset_walk ht.listed hmem
  obtain ⟨d, scope, hscope, rfl⟩ := ht.declared
  rw [TypeDeclaration.nestedTypes_build] at hmem
  obtain ⟨e, -, rfl⟩ := List.mem_map.1 hmem
  refine ⟨hlisted, ⟨e, .nested (d.build scope).descriptor, ?_, rfl⟩, ?_⟩
  · rw [TypeDeclaration.descriptor_build]
    exact hscope
  · rw [TypeDeclaration.descriptor_build] at hfirst ⊢
    rw [locate, locateIn, hlocated]
    exact congrArg (Option.map _) hfirst

/-- What the positions lead to from a type that is at home is at home. -/
theorem descend (h : a.NamesApart) (ht : a.AtHome p t) {q : List Nat} {u : TypeDefinition}
    (hu : t.descend q = some u) : a.AtHome (p ++ q) u := by
  induction q generalizing p t with
  | nil =>
    cases hu
    rwa [List.append_nil]
  | cons i q ih =>
    rw [TypeDefinition.descend] at hu
    split at hu
    · next v hv =>
      rw [List.append_cons]
      exact ih (ht.step h hv) hu
    · cases hu

theorem of_definitionAt? {d : AssemblyDeclaration} (h : d.build.NamesApart)
    (ht : d.build.definitionAt? p = some t) : d.build.AtHome p t := by
  cases p with
  | nil => cases ht
  | cons i p =>
    obtain ⟨u, hu, ht⟩ := Option.bind_eq_some_iff.1 ht
    exact (topLevel h hu).descend h ht

end Assembly.AtHome

/-- Every type that is listed stands somewhere. -/
theorem Assembly.exists_definitionAt? {a : Assembly} {t : TypeDefinition} (ht : t ∈ a.allTypes) :
    ∃ p, a.definitionAt? p = some t := by
  refine TypeDefinition.forall_walk (P := fun t => ∃ p, a.definitionAt? p = some t)
    (fun t ht u hu => ?_) _ (fun t ht => ?_) t ht
  · obtain ⟨p, hp⟩ := ht
    obtain ⟨i, hi⟩ := List.mem_iff_getElem?.1 hu
    cases p with
    | nil => cases hp
    | cons j p =>
      obtain ⟨v, hv, hp⟩ := Option.bind_eq_some_iff.1 hp
      refine ⟨j :: (p ++ [i]), Option.bind_eq_some_iff.2 ⟨v, hv, ?_⟩⟩
      rw [TypeDefinition.descend_append, hp, Option.bind_some, TypeDefinition.descend, hi]
      rfl
  · obtain ⟨i, hi⟩ := List.mem_iff_getElem?.1 ht
    exact ⟨[i], Option.bind_eq_some_iff.2 ⟨t, hi, rfl⟩⟩

/-- In a declared assembly, every type at any depth stands at some position, and a reference made
from its descriptor leads to the type at that position. Its members say that it declares them, it is
part of the assembly, and generic parameters are numbered in the order in which they stand. -/
theorem AssemblyDeclaration.ownReference_build (d : AssemblyDeclaration)
    (h : d.build.NamesApart) :
    (∀ t ∈ d.build.allTypes, ∃ p, d.build.definitionAt? p = some t) ∧
      ∀ p t, d.build.definitionAt? p = some t →
        t ∈ d.build.allTypes ∧
        d.build.locate t.descriptor.toReference = some ⟨p, t⟩ ∧
        t.descriptor.assembly = d.name ∧
        (∀ m ∈ t.members, m.declaringType = t.descriptor) ∧
        ∀ ps ∈ t.parameterLists, ps.map (·.index) = List.range ps.length := by
  refine ⟨fun t ht => Assembly.exists_definitionAt? ht, fun p t ht => ?_⟩
  obtain ⟨hlisted, ⟨e, scope, hscope, rfl⟩, hlocated⟩ := Assembly.AtHome.of_definitionAt? h ht
  refine ⟨hlisted, ?_, ?_, fun m hm => e.declaringType_of_mem_build scope hm,
    fun ps hps => e.index_of_mem_parameterLists scope hps⟩
  · rw [Assembly.locate_toReference, hlocated]
  · rw [TypeDeclaration.descriptor_build]
    exact hscope

/-- Two classes, and inside the second one another class of the name of the first, in which is one
more; the innermost one has two generic parameters and a generic method. -/
def nestedDeclaration : AssemblyDeclaration :=
  let method : MethodDeclaration :=
    { name := "Map", generics := [{ name := "R" }, { name := "S" }] }
  let inner := (((TypeDeclaration.hidden "A").generic { name := "X" }).generic
    { name := "Y" }).member (.method method)
  let middle := ((TypeDeclaration.hidden "A").member (.constructor .publicScope)).nest inner
  ⟨⟨"Lib", .zero, none⟩, [AssemblyDeclaration.mainModule ⟨"Lib", .zero, none⟩
    [TypeDeclaration.hidden "A",
      (TypeDeclaration.publicClass "Lib" "B").nest (TypeDeclaration.hidden "C") |>.nest middle] []]⟩

theorem AssemblyDeclaration.ownReference_build_nestedDeclaration :
    let a := nestedDeclaration.build
    a.NamesApart ∧ a.allTypes.length = 5 ∧
      ∃ t, a.definitionAt? [1, 1, 0] = some t ∧
        t.descriptor.path = [("", "A"), ("", "A"), ("Lib", "B")] ∧
        t.parameterLists.map List.length = [2, 2] ∧
        a.locate t.descriptor.toReference = some ⟨[1, 1, 0], t⟩ ∧
        ∀ ps ∈ t.parameterLists, ps.map (·.index) = List.range ps.length := by
  have hall : nestedDeclaration.build.allTypes =
      TypeDefinition.preorderOf nestedDeclaration.build.topLevel := TypeDefinition.walk_eq _
  have happart : nestedDeclaration.build.NamesApart :=
    ⟨by decide, by rw [hall]; decide⟩
  obtain ⟨-, hplaces⟩ := nestedDeclaration.ownReference_build happart
  obtain ⟨-, hlocated, -, -, hindices⟩ := hplaces [1, 1, 0] _ rfl
  exact ⟨happart, by rw [hall]; rfl, _, rfl, rfl, rfl, hlocated, hindices⟩

end ApiEvolution
