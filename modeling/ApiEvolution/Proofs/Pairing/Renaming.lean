import ApiEvolution.Proofs.Pairing.Content
import ApiEvolution.Proofs.Pairing.Localized
import ApiEvolution.Proofs.Rules.Renaming
import ApiEvolution.Proofs.Universe.Renaming

/-!
# Pairing renamed builds

Two renamed builds are paired as the builds themselves are: what an assembly brings is renamed
(`Selection.registered_renamed`), definitions and members meet in the nodes they met in before, and
each node is judged as before. So the rules say the same about renamed builds, provided that the
comparer overlooks new names and that what is selected is asked of the renamed declarations
(`compareLoaded_renamed`).
-/

namespace ApiEvolution

/-- Selects what the selection makes of renamed declarations. -/
def Selection.along (s : Selection) (F : Renaming) : Selection :=
  { s with
    includesType := fun t => s.includesType (F.type t)
    includesMember := fun m => s.includesMember (F.member m) }

theorem TypeDefinition.isVisible_renamed (F : Renaming) (t : TypeDefinition) :
    (F.type t).isVisible = t.isVisible := by
  rw [isVisible, isVisible, isNested, isNested, visibility, visibility, Renaming.descriptor_type,
    Renaming.isSome_declaring?_ref, Renaming.flags_type]

/-- What is visible does not depend on names of assemblies. -/
theorem Selection.visible_along (F : Renaming) : visible.along F = visible := by
  have htypes : (fun t => visible.includesType (F.type t)) = visible.includesType :=
    funext (TypeDefinition.isVisible_renamed F)
  rw [along, htypes]
  rfl

/-! ## What an assembly brings -/

namespace Selection

variable (s : Selection) (F : Renaming)

mutual

theorem expand_renamed (id : DefinitionId) : (t : TypeDefinition) →
    s.expand (F.definitionId id) (F.type t) = ((s.along F).expand id t).map F.definition
  | ⟨d, f, ps, ms, nested⟩ => by
    have hnested := expandFrom_renamed id 0 nested
    rw [Renaming.type, TypeDefinition.map, expand, expand, List.map_cons, hnested]
    rfl

theorem expandFrom_renamed (id : DefinitionId) : (position : Nat) → (ts : List TypeDefinition) →
    s.expandFrom (F.definitionId id) position (TypeDefinition.mapAll F.ref ts) =
      ((s.along F).expandFrom id position ts).map F.definition
  | _, [] => rfl
  | position, t :: ts => by
    have hhead := expand_renamed { id with position := id.position ++ [position] } t
    have hincluded : s.includesType (t.map F.ref) = (s.along F).includesType t := rfl
    rw [TypeDefinition.mapAll, expandFrom, expandFrom, List.map_append,
      expandFrom_renamed id (position + 1) ts, hincluded]
    congr 1
    split
    · exact hhead
    · rfl

end

theorem admitted_renamed (d : Definition) :
    s.admitted (F.definition d) = ((s.along F).admitted d).map F.definition := by
  have hincluded : s.includesType (F.definition d).type = (s.along F).includesType d.type := rfl
  rw [admitted, admitted, hincluded]
  split
  · exact s.expand_renamed F d.id d.type
  · rfl

variable {s F} {definitions definitions' : DefinitionId → Option TypeDefinition}

/-- Where the reference leads there is in the second table what there is in the first one,
renamed. -/
def Leads (F : Renaming) (definitions definitions' : DefinitionId → Option TypeDefinition)
    (t : TypeRef) : Prop :=
  ∀ id, t.target? = some id → definitions' (F.definitionId id) = (definitions id).map F.type

theorem forwarded?_renamed {t : TypeRef} (h : Leads F definitions definitions' t) :
    forwarded? definitions' (F.ref t) = (forwarded? definitions t).map F.definition := by
  rw [forwarded?, forwarded?, Renaming.target?_ref]
  cases ht : t.target? with
  | none => rfl
  | some id =>
    simp only [Option.map_some, Option.bind_some, h id ht, Option.map_map]
    rfl

theorem forwarded_renamed {ts : List TypeRef} (h : ∀ t ∈ ts, Leads F definitions definitions' t) :
    (ts.map F.ref).filterMap (forwarded? definitions') =
      (ts.filterMap (forwarded? definitions)).map F.definition := by
  rw [List.filterMap_map, List.map_filterMap]
  exact List.filterMap_congr fun t ht => forwarded?_renamed (h t ht)

theorem flatMap_admitted_renamed (ds : List Definition) :
    (ds.map F.definition).flatMap s.admitted =
      (ds.flatMap (s.along F).admitted).map F.definition := by
  rw [List.flatMap_map, List.map_flatMap]
  exact List.flatMap_congr fun d _ => s.admitted_renamed F d

theorem registeredFrom_renamed (id : AssemblyId) (position : Nat) {ms : List Module}
    (h : ∀ m ∈ ms, ∀ t ∈ m.exported, Leads F definitions definitions' t) :
    s.registeredFrom definitions' (F.assemblyId id) position (ms.map F.module) =
      ((s.along F).registeredFrom definitions id position ms).map F.definition := by
  induction ms generalizing position with
  | nil => rfl
  | cons m ms ih =>
    have hrest := ih (position + m.types.length) fun m' hm' => h m' (List.mem_cons_of_mem m hm')
    have htypes : (F.module m).types = m.types.map F.type := TypeDefinition.mapAll_eq F.ref m.types
    have hexported : (F.module m).exported = m.exported.map F.ref := rfl
    have hdeclared : ((m.types.map F.type).zipIdx position).flatMap
        (fun t => s.admitted ⟨⟨F.assemblyId id, [t.2]⟩, t.1⟩) =
          ((m.types.zipIdx position).flatMap fun t =>
            (s.along F).admitted ⟨⟨id, [t.2]⟩, t.1⟩).map F.definition := by
      rw [List.zipIdx_map, List.flatMap_map, List.map_flatMap]
      exact List.flatMap_congr fun t _ => s.admitted_renamed F ⟨⟨id, [t.2]⟩, t.1⟩
    rw [List.map_cons, registeredFrom, registeredFrom, htypes, hexported, hdeclared,
      forwarded_renamed (h m List.mem_cons_self), flatMap_admitted_renamed, List.length_map, hrest,
      List.map_append, List.map_append]

/-- A renamed assembly brings what the assembly brings, renamed. -/
theorem registered_renamed {l : Loaded}
    (h : ∀ t ∈ l.assembly.exported, Leads F definitions definitions' t) :
    s.registered definitions' (F.loaded l) =
      ((s.along F).registered definitions l).map F.definition :=
  registeredFrom_renamed l.id 0 fun m hm t ht => h t (List.mem_flatMap.2 ⟨m, hm, ht⟩)

end Selection

/-! ## Binding within an assembly -/

namespace Renaming

variable (F : Renaming)

/-- Everything that is noticed, renamed. -/
def noticing : Coupling Noticed Noticed where
  Holds _ := True
  image n := ⟨n.retained.map F.definitionId, n.diagnostics.map F.diagnostic⟩

theorem meets_bindLocally (l : Loaded) :
    F.noticing.Meets F.ref (ApiEvolution.bindLocally l)
      (ApiEvolution.bindLocally (F.loaded l)) := by
  intro t n _
  refine ⟨trivial, ?_⟩
  have hreported {f : Finding} (hf : F.finding f = f) :
      F.noticing.image { n with diagnostics := n.diagnostics ++ [⟨f, some l.assembly.name.name⟩] } =
        { F.noticing.image n with
          diagnostics := (F.noticing.image n).diagnostics ++
            [⟨f, some (F.loaded l).assembly.name.name⟩] } := by
    simp only [noticing, List.map_append, List.map_singleton, diagnostic, hf]
    rfl
  have hretained (id : DefinitionId) :
      F.noticing.image { n with retained := n.retained ++ [id] } =
        { F.noticing.image n with
          retained := (F.noticing.image n).retained ++ [F.definitionId id] } := by
    simp only [noticing, List.map_append, List.map_singleton]
  obtain ⟨space, name, s, b⟩ := t
  have hfullName := fullName_ref (F := F) (.mk space name s b)
  cases b with
  | definition => rfl
  | unresolved => rfl
  | dropped =>
    refine Prod.ext rfl ((hreported rfl).trans ?_).symm
    rw [← hfullName]
    rfl
  | resolved id d => exact Prod.ext rfl (hretained id).symm
  | unbound =>
    have hlocate : (F.loaded l).assembly.locate (F.ref (.mk space name s .unbound)) =
        (l.assembly.locate (.mk space name s .unbound)).map F.found := locate l.assembly _
    unfold ApiEvolution.bindLocally
    simp only [StateT.run, TypeRef.binding, hlocate]
    cases l.assembly.locate (.mk space name s .unbound) with
    | some f =>
      refine Prod.ext ?_ (hretained ⟨l.id, f.position⟩).symm
      have hdescriptor : (F.found f).type.descriptor = F.ref f.type.descriptor :=
        descriptor_type f.type
      simp only [Option.map_some, hdescriptor, ref_withBinding]
      rfl
    | none =>
      refine Prod.ext rfl ((hreported rfl).trans ?_).symm
      rw [← hfullName]
      rfl

/-- An assembly that is renamed is bound to itself renamed. -/
theorem bound_loaded (l : Loaded) : (F.loaded l).bound = F.loaded l.bound := by
  have hmodules : F.noticing.InStep (List.map F.module)
      (l.assembly.modules.mapM fun m => do
        return { m with types := ← TypeDefinition.traverseAll (ApiEvolution.bindLocally l) m.types })
      ((l.assembly.modules.map F.module).mapM fun m => do
        return { m with
          types := ← TypeDefinition.traverseAll (ApiEvolution.bindLocally (F.loaded l)) m.types }) :=
    Coupling.inStep_mapM fun m _ =>
      Coupling.inStep_map (Coupling.inStep_types (F.meets_bindLocally l) m.types) fun _ => rfl
  have hbound : F.noticing.InStep F.loaded l.bindLocally (F.loaded l).bindLocally :=
    Coupling.inStep_map hmodules fun _ => rfl
  exact congrArg Prod.fst (hbound {} trivial).2

end Renaming

/-! ## Nodes -/

namespace TypeNode

variable {s : Selection} {F : Renaming}

/-- Renames the definitions and the members of a node. -/
def renamed (F : Renaming) (n : TypeNode) : TypeNode :=
  n.map F.definition F.member

theorem addMember_renamed (hF : s.comparer.Overlooks F) (side : Side)
    (members : BucketIndex MemberNode) (m : Member) :
    addMember s side (members.map (·.map F.member)) (F.member m) =
      (addMember (s.along F) side members m).map (·.map F.member) := by
  have hhash : (F.member m).fingerprint = m.fingerprint :=
    Member.fingerprint_congr (Renaming.path_ref m.declaringType)
  rw [addMember, addMember, hhash, Pair.single_map]
  refine BucketIndex.upsert_map (fun p _ => ?_) fun p => Pair.set_map F.member p m side
  rw [Pair.representative_map]
  exact Comparer.sameMember_renamed hF hF p.representative m

theorem addMembers_renamed (hF : s.comparer.Overlooks F) (side : Side)
    (members : BucketIndex MemberNode) (t : TypeDefinition) :
    addMembers s side (F.type t) (members.map (·.map F.member)) =
      (addMembers (s.along F) side t members).map (·.map F.member) := by
  have hselected : s.includesMember ∘ F.member = (s.along F).includesMember := rfl
  rw [addMembers, addMembers, Renaming.members_type, List.filter_map, hselected, List.foldl_map]
  exact List.foldl_hom _ fun members m => addMember_renamed hF side members m

theorem single_renamed (hF : s.comparer.Overlooks F) (side : Side) (d : Definition) :
    single s side (F.definition d) = (single (s.along F) side d).renamed F := by
  have hmembers : addMembers s side (F.type d.type) _ = _ :=
    addMembers_renamed hF side .empty d.type
  rw [single, single, renamed, map, Pair.single_map, ← hmembers]
  rfl

theorem set_renamed (hF : s.comparer.Overlooks F) (side : Side) (d : Definition) (n : TypeNode) :
    set s side (F.definition d) (n.renamed F) = (set (s.along F) side d n).renamed F := by
  have hmembers : addMembers s side (F.type d.type) _ = _ :=
    addMembers_renamed hF side n.members d.type
  rw [set, set, renamed, renamed, map, map, Pair.set_map, ← hmembers]
  rfl

end TypeNode

namespace SurfaceTree

variable {s : Selection} {F : Renaming}

theorem register_renamed (hF : s.comparer.Overlooks F) (side : Side) (nodes : BucketIndex TypeNode)
    (d : Definition) : register s side (nodes.map (TypeNode.renamed F)) (F.definition d) =
      (register (s.along F) side nodes d).map (TypeNode.renamed F) := by
  have hpath : (F.definition d).type.descriptor.path = d.type.descriptor.path := by
    have hdescriptor : (F.definition d).type.descriptor = F.ref d.type.descriptor :=
      Renaming.descriptor_type d.type
    rw [hdescriptor, Renaming.path_ref]
  rw [register, register, TypeRef.fingerprint_eq_of_path hpath, TypeNode.single_renamed hF]
  refine BucketIndex.upsert_map (fun n _ => ?_) fun n => TypeNode.set_renamed hF side d n
  have hrepresentative : (n.renamed F).types.representative = F.definition n.types.representative :=
    Pair.representative_map F.definition n.types
  rw [hrepresentative]
  simp only [Renaming.definition, Renaming.descriptor_type]
  exact Comparer.sameType_ref hF hF _ _

theorem foldl_register_renamed (hF : s.comparer.Overlooks F) (side : Side) (ds : List Definition)
    (nodes : BucketIndex TypeNode) :
    (ds.map F.definition).foldl (register s side) (nodes.map (TypeNode.renamed F)) =
      (ds.foldl (register (s.along F) side) nodes).map (TypeNode.renamed F) := by
  rw [List.foldl_map]
  exact List.foldl_hom _ fun nodes d => register_renamed hF side nodes d

variable {definitions definitions' : DefinitionId → Option TypeDefinition} {l r : Loaded}

/-- The tree of renamed builds has the nodes of the builds, renamed. -/
theorem types_ofBuilds_renamed (hF : s.comparer.Overlooks F)
    (hl : ∀ t ∈ l.assembly.exported, Selection.Leads F definitions definitions' t)
    (hr : ∀ t ∈ r.assembly.exported, Selection.Leads F definitions definitions' t) :
    (ofBuilds s definitions' (F.loaded l) (F.loaded r)).types =
      (ofBuilds (s.along F) definitions l r).types.map (TypeNode.renamed F) := by
  have hbrought {l : Loaded}
      (h : ∀ t ∈ l.assembly.exported, Selection.Leads F definitions definitions' t) :
      s.registered definitions' (F.loaded l).bound =
        ((s.along F).registered definitions l.bound).map F.definition := by
    rw [F.bound_loaded]
    exact Selection.registered_renamed fun t ht => h t (l.exported_bound ▸ ht)
  have hempty : (BucketIndex.empty : BucketIndex TypeNode) =
      BucketIndex.empty.map (TypeNode.renamed F) := rfl
  rw [types, types, nodes_ofBuilds, nodes_ofBuilds, hbrought hl, hbrought hr, hempty,
    foldl_register_renamed hF, foldl_register_renamed hF]
  rfl

/-- Rules say the same about renamed builds. -/
theorem judge_ofBuilds_renamed (hF : s.comparer.Overlooks F)
    (hl : ∀ t ∈ l.assembly.exported, Selection.Leads F definitions definitions' t)
    (hr : ∀ t ∈ r.assembly.exported, Selection.Leads F definitions definitions' t)
    (rules : List Rule) :
    (ofBuilds s definitions' (F.loaded l) (F.loaded r)).judge rules =
      (ofBuilds (s.along F) definitions l r).judge rules := by
  have hjudge (n : TypeNode) : (n.renamed F).judge rules s.comparer = n.judge rules s.comparer :=
    TypeNode.judge_map (F := F.definition) (G := F.member) (P := fun _ => True) (Q := fun _ => True)
      (fun d e _ _ r => r.onTypes_renamed hF hF d.type e.type)
      (fun m m' _ _ r => r.onMembers_renamed hF hF m m')
      ⟨fun _ _ => trivial, fun _ _ _ _ => trivial⟩
  rw [judge, types_ofBuilds_renamed hF hl hr, List.map_map]
  exact congrArg Verdict.concat (List.map_congr_left fun n _ => hjudge n)

end SurfaceTree

/-! ## Builds -/

/-- The definitions of two renamed universes are those of the universes, renamed. -/
theorem definitionsOf_renamed (F : Renaming) (u v : Universe) (id : DefinitionId) :
    definitionsOf (F.image u) (F.image v) (F.definitionId id) =
      (definitionsOf u v id).map F.type := by
  have hcontext : (F.definitionId id).assembly.context = (F.image u).context ↔
      id.assembly.context = u.context := F.injective.eq_iff
  rw [definitionsOf, definitionsOf]
  by_cases h : id.assembly.context = u.context
  · rw [if_pos h, if_pos (hcontext.2 h), Renaming.definition?_image]
  · rw [if_neg h, if_neg (mt hcontext.1 h), Renaming.definition?_image]

/-- Builds that are loaded renamed differ as the builds do. -/
theorem compareLoaded_renamed {s : Selection} {F : Renaming} (hF : s.comparer.Overlooks F)
    (left right : Loaded × Universe) :
    (compareLoaded s (F.loaded left.1, F.image left.2)
      (F.loaded right.1, F.image right.2)).differences =
      (compareLoaded (s.along F) left right).differences := by
  have hleads (t : TypeRef) : Selection.Leads F (definitionsOf left.2 right.2)
      (definitionsOf (F.image left.2) (F.image right.2)) t :=
    fun id _ => definitionsOf_renamed F left.2 right.2 id
  exact congrArg Verdict.differences
    (SurfaceTree.judge_ofBuilds_renamed hF (fun t _ => hleads t) (fun t _ => hleads t) Rule.all)

end ApiEvolution
