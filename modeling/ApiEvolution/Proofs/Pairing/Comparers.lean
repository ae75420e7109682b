import Mathlib
import ApiEvolution.Proofs.Catalog
import ApiEvolution.Proofs.Pairing.Localized

/-!
# Type nodes under other comparers

On definitions every comparer is equality of paths, so identity of the types of declared assemblies
is an equivalence (`Comparer.equivalence_sameType`), and it does not matter for the type nodes of a
tree by which comparer, or by which hash, they are paired (`Joined.types_eq`). The assemblies may be
in any state of binding: what a type is called does not depend on it.
-/

namespace ApiEvolution

/-! ## Types of declared assemblies -/

/-- Apart from bindings, the assembly is as a declaration makes it. -/
def Assembly.OfDeclaration (a : Assembly) : Prop :=
  ∃ d : AssemblyDeclaration, a.detached = d.build.detached

namespace TypeDefinition

variable {t u : TypeDefinition}

/-- A type of an assembly that is as a declaration makes it, apart from bindings. -/
def OfDeclaration (t : TypeDefinition) : Prop :=
  ∃ (a : Assembly) (p : List Nat), a.OfDeclaration ∧ a.definitionAt? p = some t

/-- Apart from bindings, the type is declared in a scope of definitions. -/
def Resembles (t : TypeDefinition) : Prop :=
  ∃ u : TypeDefinition, u.Declared ∧ t.detached = u.detached

theorem Resembles.chain (h : t.Resembles) : t.descriptor.isDefinitionChain := by
  obtain ⟨u, hu, hsame⟩ := h
  have hdescriptor := congrArg descriptor hsame
  rw [descriptor_detached, descriptor_detached] at hdescriptor
  rw [← TypeRef.isDefinitionChain_detached, hdescriptor, TypeRef.isDefinitionChain_detached]
  exact hu.descriptor

theorem Resembles.nestedTypes (h : t.Resembles) (hu : u ∈ t.nestedTypes) : u.Resembles := by
  obtain ⟨t', ht', hsame⟩ := h
  have hmem : u.detached ∈ t'.nestedTypes.map detached := by
    rw [← nestedTypes_detached, ← hsame, nestedTypes_detached]
    exact List.mem_map_of_mem hu
  obtain ⟨u', hu', hcopy⟩ := List.mem_map.1 hmem
  exact ⟨u', ht'.nestedTypes hu', hcopy.symm⟩

theorem Resembles.declaringType (h : t.Resembles) {m : Member} (hm : m ∈ t.members) :
    m.declaringType.isDefinitionChain := by
  obtain ⟨u, hu, hsame⟩ := h
  have hmem : m.map TypeRef.detached ∈ u.members.map (Member.map TypeRef.detached) := by
    rw [← members_detached, ← hsame, members_detached]
    exact List.mem_map_of_mem hm
  obtain ⟨m', hm', hcopy⟩ := List.mem_map.1 hmem
  have hdeclaring : m'.declaringType.detached = m.declaringType.detached :=
    congrArg Member.declaringType hcopy
  rw [← TypeRef.isDefinitionChain_detached, ← hdeclaring, TypeRef.isDefinitionChain_detached]
  exact hu.declaringType hm'

theorem Resembles.descend (h : t.Resembles) {p : List Nat} (hu : t.descend p = some u) :
    u.Resembles := by
  induction p generalizing t with
  | nil =>
    cases hu
    exact h
  | cons i p ih =>
    rw [TypeDefinition.descend] at hu
    split at hu
    · next v hv => exact ih (h.nestedTypes (List.mem_of_getElem? hv)) hu
    · cases hu

end TypeDefinition

theorem Assembly.OfDeclaration.topLevel {a : Assembly} (h : a.OfDeclaration) {t : TypeDefinition}
    (ht : t ∈ a.topLevel) : t.Resembles := by
  obtain ⟨d, hd⟩ := h
  have hmem : t.detached ∈ d.build.topLevel.map TypeDefinition.detached := by
    rw [← topLevel_detached, ← hd, topLevel_detached]
    exact List.mem_map_of_mem ht
  obtain ⟨u, hu, hcopy⟩ := List.mem_map.1 hmem
  rw [AssemblyDeclaration.topLevel_build] at hu
  obtain ⟨e, -, rfl⟩ := List.mem_map.1 hu
  exact ⟨_, ⟨e, _, rfl, rfl⟩, hcopy.symm⟩

theorem TypeDefinition.OfDeclaration.resembles {t : TypeDefinition} (h : t.OfDeclaration) :
    t.Resembles := by
  obtain ⟨a, p, ha, ht⟩ := h
  cases p with
  | nil => cases ht
  | cons i p =>
    obtain ⟨u, hu, hd⟩ := Option.bind_eq_some_iff.1 ht
    exact (ha.topLevel (List.mem_of_getElem? hu)).descend hd

/-- Identity of the types of declared assemblies is an equivalence. -/
theorem Comparer.equivalence_sameType (c : Comparer) :
    Equivalence fun t u : { t : TypeDefinition // t.OfDeclaration } =>
      c.sameType t.1.descriptor u.1.descriptor := by
  have hpath (t u : { t : TypeDefinition // t.OfDeclaration }) :
      c.sameType t.1.descriptor u.1.descriptor ↔ t.1.descriptor.path = u.1.descriptor.path := by
    have ht := t.2.resembles.chain
    have hu := u.2.resembles.chain
    rw [sameType_eq_of_definitionChain c ht hu, beq_iff_eq]
  exact ⟨fun t => (hpath t t).2 rfl, fun {t u} h => (hpath u t).2 ((hpath t u).1 h).symm,
    fun {t u v} h h' => (hpath t v).2 (((hpath t u).1 h).trans ((hpath u v).1 h'))⟩

/-! ## What an assembly brings -/

theorem Assembly.OfDeclaration.bound {l : Loaded} (h : l.assembly.OfDeclaration) :
    l.bound.assembly.OfDeclaration := by
  obtain ⟨d, hd⟩ := h
  exact ⟨d, l.detached_bound.trans hd⟩

/-- Binding an assembly to itself leaves its types as they were declared. -/
theorem Loaded.resembles_bound {l : Loaded} (h : ∀ t ∈ l.assembly.topLevel, t.Resembles) :
    ∀ t ∈ l.bound.assembly.topLevel, t.Resembles := by
  intro t ht
  rw [topLevel_bound] at ht
  obtain ⟨u, hu, rfl⟩ := List.mem_map.1 ht
  obtain ⟨v, hv, hsame⟩ := h u hu
  exact ⟨v, hv, (TypeDefinition.map_rebind l.detached_localize u).trans hsame⟩

namespace Selection

variable {s s' : Selection} {definitions : DefinitionId → Option TypeDefinition} {l : Loaded}

/-- Whatever an assembly of declared types brings into a tree is a declared type, apart from
bindings. -/
theorem resembles_of_topLevel (hl : ∀ t ∈ l.assembly.topLevel, t.Resembles)
    (hdefinitions : ∀ id t, definitions id = some t → t.Resembles) {d : Definition}
    (hd : d ∈ s.registered definitions l) : d.type.Resembles := by
  have htype : d.type ∈ s.surface definitions l.assembly := by
    rw [← registered_types]
    exact List.mem_map_of_mem hd
  obtain ⟨m, hm, htype⟩ := List.mem_flatMap.1 htype
  have hvisit (ts : List TypeDefinition) (hts : ∀ t ∈ ts, t.Resembles) :
      ∀ u ∈ s.visitAll ts, u.Resembles :=
    forall_visitAll (fun t ht u hu => ht.nestedTypes hu) ts hts
  rcases List.mem_append.1 htype with htype | htype
  · exact hvisit m.types (fun t ht => hl t (List.mem_flatMap.2 ⟨m, hm, ht⟩)) _ htype
  · refine hvisit _ (fun t ht => ?_) _ htype
    obtain ⟨r, -, hr⟩ := List.mem_filterMap.1 ht
    obtain ⟨id, -, hid⟩ := Option.bind_eq_some_iff.1 hr
    exact hdefinitions id t hid

theorem resembles_of_mem_registered (hl : l.assembly.OfDeclaration)
    (hdefinitions : ∀ id t, definitions id = some t → t.OfDeclaration) {d : Definition}
    (hd : d ∈ s.registered definitions l.bound) : d.type.Resembles :=
  resembles_of_topLevel (fun _ ht => hl.bound.topLevel ht)
    (fun id t ht => (hdefinitions id t ht).resembles) hd

/-- Whatever a declared assembly brings into a tree is called by a chain of definitions. -/
theorem chain_of_mem_registered (hl : l.assembly.OfDeclaration)
    (hdefinitions : ∀ id t, definitions id = some t → t.OfDeclaration) {d : Definition}
    (hd : d ∈ s.registered definitions l.bound) : d.type.descriptor.isDefinitionChain :=
  (resembles_of_mem_registered hl hdefinitions hd).chain

mutual

theorem expand_congr (h : s.includesType = s'.includesType) (id : DefinitionId) :
    (t : TypeDefinition) → s.expand id t = s'.expand id t
  | ⟨_, _, _, _, nested⟩ => by
    rw [expand, expand, expandFrom_congr h id 0 nested]

theorem expandFrom_congr (h : s.includesType = s'.includesType) (id : DefinitionId) :
    (position : Nat) → (ts : List TypeDefinition) →
    s.expandFrom id position ts = s'.expandFrom id position ts
  | _, [] => rfl
  | position, t :: rest => by
    rw [expandFrom, expandFrom, h, expand_congr h _ t, expandFrom_congr h id (position + 1) rest]

end

/-- What an assembly brings depends on which types take part, and on nothing else. -/
theorem registered_eq_of_includesType (h : s.includesType = s'.includesType) :
    s.registered definitions l = s'.registered definitions l := by
  have hadmitted : s.admitted = s'.admitted := by
    funext d
    rw [admitted, admitted, h, expand_congr h]
  unfold registered
  generalize 0 = position
  induction l.assembly.modules generalizing position with
  | nil => rfl
  | cons m ms ih => rw [registeredFrom, registeredFrom, hadmitted, ih]

end Selection

/-! ## Joins -/

theorem Pair.ext_get {α : Type} {p q : Pair α} (h : ∀ side, p.get? side = q.get? side) : p = q := by
  have hleft := h .left
  have hright := h .right
  cases p <;> cases q <;> simp_all [get?, left?, right?]

/-- Joins of the same definitions have the same type nodes, however they were made. -/
theorem Joined.types_eq {s s' : Selection} {regs : List (Side × Definition)}
    {nodes nodes' : BucketIndex TypeNode} (h : Joined s regs nodes) (h' : Joined s' regs nodes') :
    nodes.entries.map (·.types) = nodes'.entries.map (·.types) := by
  have hpaths : nodes.entries.map TypeNode.path = nodes'.entries.map TypeNode.path :=
    h.paths.trans h'.paths.symm
  have hlength : nodes.entries.length = nodes'.entries.length := by
    simpa only [List.length_map] using congrArg List.length hpaths
  refine List.ext_getElem (by simpa only [List.length_map] using hlength) fun i hi hi' => ?_
  rw [List.length_map] at hi hi'
  have hpath : nodes.entries[i].path = nodes'.entries[i].path := by
    have hat := List.getElem_of_eq hpaths (i := i) (by rwa [List.length_map])
    rwa [List.getElem_map, List.getElem_map] at hat
  rw [List.getElem_map, List.getElem_map]
  refine Pair.ext_get fun side => ?_
  rw [h.sides (List.getElem_mem hi), h'.sides (List.getElem_mem hi'), hpath]

/-- Two definitions are the same, whether or not versions count, exactly if their paths are equal.
So identity of the types of declared assemblies is an equivalence, and the type nodes of two
declared builds are the same by whatever comparer and whatever hash they are paired. -/
theorem Comparer.identity_of_definitions :
    (∀ t u : TypeRef, t.isDefinitionChain → u.isDefinitionChain →
      (agnostic.sameType t u ↔ strict.sameType t u) ∧ (strict.sameType t u ↔ t.path = u.path)) ∧
    (∀ c : Comparer, Equivalence fun t u : { t : TypeDefinition // t.OfDeclaration } =>
      c.sameType t.1.descriptor u.1.descriptor) ∧
    ∀ (s : Selection) (c : Comparer) (hash : HashFunction)
      (definitions : DefinitionId → Option TypeDefinition) (left right : Loaded),
      left.assembly.OfDeclaration → right.assembly.OfDeclaration →
      (∀ id t, definitions id = some t → t.OfDeclaration) →
      (SurfaceTree.ofBuilds { s with comparer := c, hash } definitions left right).types.map
          (·.types) =
        (SurfaceTree.ofBuilds s definitions left right).types.map (·.types) := by
  refine ⟨fun t u ht hu => ?_, equivalence_sameType, ?_⟩
  · have hpath (c : Comparer) : c.sameType t u ↔ t.path = u.path := by
      rw [sameType_eq_of_definitionChain c ht hu, beq_iff_eq]
    exact ⟨(hpath agnostic).trans (hpath strict).symm, hpath strict⟩
  · intro s c hash definitions left right hleft hright hdefinitions
    have hjoined (s : Selection) := SurfaceTree.joined_ofBuilds s definitions left right
      fun d hd => (List.mem_append.1 hd).elim
        (Selection.chain_of_mem_registered hleft hdefinitions)
        (Selection.chain_of_mem_registered hright hdefinitions)
    have hsame (l : Loaded) : Selection.registered { s with comparer := c, hash } definitions l =
        s.registered definitions l := Selection.registered_eq_of_includesType rfl
    have hother := hjoined { s with comparer := c, hash }
    rw [hsame, hsame] at hother
    exact hother.types_eq (hjoined s)

/-- Two definitions of one path, in versions of an assembly that agree only if versions do not
count; and two builds with a type in common. -/
theorem Comparer.identity_of_definitions_shelf :
    let page (version : Version) : TypeRef :=
      .mk "" "Page" (.nested (.mk "Lib" "B" (.assembly ⟨"Lib", version, none⟩) .definition))
        .definition
    strict.sameType (page ⟨1, 0, 0, 0⟩) (page ⟨2, 0, 0, 0⟩) ∧
    (SurfaceTree.ofBuilds (.withComparer .strict .visible)
        (fun id => (shelf 0 ["A", "B"]).assembly.definitionAt? id.position)
        (shelf 0 ["A", "B"]) (shelf 1 ["B", "C"])).types.map (·.types) =
      (SurfaceTree.ofBuilds .visible
        (fun id => (shelf 0 ["A", "B"]).assembly.definitionAt? id.position)
        (shelf 0 ["A", "B"]) (shelf 1 ["B", "C"])).types.map (·.types) := by
  obtain ⟨hsame, -, hnodes⟩ := identity_of_definitions
  have hshelf (number : Nat) (names : List String) : (shelf number names).assembly.OfDeclaration :=
    ⟨_, rfl⟩
  refine ⟨(hsame _ _ rfl rfl).2.2 rfl, ?_⟩
  exact hnodes .visible .strict .mixing _ _ _ (hshelf 0 _) (hshelf 1 _) fun id t ht =>
    ⟨_, id.position, hshelf 0 ["A", "B"], ht⟩

end ApiEvolution
