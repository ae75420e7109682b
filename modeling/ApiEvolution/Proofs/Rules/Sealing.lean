import ApiEvolution.Proofs.Pairing.Comparers
import ApiEvolution.Rules.Judge

/-!
# Which types become closed

The sealing rule reports a pair of types if the old one could be derived from and the new one cannot
(`Rules.Closes`), and nothing else leads to such a difference (`SurfaceTree.filter_judge`). It looks
at the constructors that the types declare, whether or not they take part in the comparison, and
the members that do have no part in how types are paired (`SurfaceTree.types_memberless`).

The main statement is `SurfaceTree.sealing_exact`.
-/

namespace ApiEvolution

/-! ## Types that can be derived from -/

/-- A constructor that a type derived outside the assembly can call: a method of this name that is
not static. -/
structure Member.IsBaseConstructor (m : Member) : Prop where
  name : m.name = ".ctor"
  method : ∃ k, m.kind = .method k ∧ hasFlag k.attributes Method.staticFlag = false
  access : m.access = .publicScope ∨ m.access = .family ∨ m.access = .familyOrAssembly

theorem Member.isBaseConstructor_iff {m : Member} :
    m.IsBaseConstructor ↔ (m.isInstanceConstructor && m.isVisible) = true := by
  have haccess : m.isVisible = true ↔
      m.access = .publicScope ∨ m.access = .family ∨ m.access = .familyOrAssembly := by
    unfold isVisible
    cases m.access <;> decide
  have hmethod : (m.method?.isSome && !m.isStatic) = true ↔
      ∃ k, m.kind = .method k ∧ hasFlag k.attributes Method.staticFlag = false := by
    unfold isStatic hasAttribute method?
    cases m.kind <;> simp
  rw [Bool.and_eq_true, haccess, isInstanceConstructor, Bool.and_assoc, Bool.and_eq_true, hmethod,
    beq_iff_eq]
  exact ⟨fun ⟨h, h', h''⟩ => ⟨⟨h, h'⟩, h''⟩, fun ⟨⟨h, h'⟩, h''⟩ => ⟨h, h', h''⟩⟩

instance : DecidablePred Member.IsBaseConstructor := fun _ =>
  decidable_of_iff _ Member.isBaseConstructor_iff.symm

theorem TypeDefinition.isEffectivelySealed_iff {t : TypeDefinition} :
    t.isEffectivelySealed = true ↔ t.isSealed = true ∨ ∀ m ∈ t.members, ¬m.IsBaseConstructor := by
  simp only [isEffectivelySealed, hasVisibleConstructor, Bool.or_eq_true, Bool.not_eq_true',
    List.any_eq_false, Member.isBaseConstructor_iff]

/-- Two types, no interfaces, of which the old one is not sealed and has a constructor for derived
types, and the new one is sealed or has no such constructor. -/
structure Rules.Closes (left right : TypeDefinition) : Prop where
  leftClass : left.isInterface = false
  rightClass : right.isInterface = false
  unsealed : left.isSealed = false
  constructor : ∃ m ∈ left.members, m.IsBaseConstructor
  closed : right.isSealed = true ∨ ∀ m ∈ right.members, ¬m.IsBaseConstructor

namespace Rules

theorem closes_iff {left right : TypeDefinition} : Closes left right ↔
    (left.isInterface || right.isInterface) = false ∧
      (!left.isEffectivelySealed && right.isEffectivelySealed) = true := by
  have hopen : left.isEffectivelySealed = false ↔
      left.isSealed = false ∧ ∃ m ∈ left.members, m.IsBaseConstructor := by
    rw [← Bool.not_eq_true, TypeDefinition.isEffectivelySealed_iff]
    simp
  rw [Bool.or_eq_false_iff, Bool.and_eq_true, Bool.not_eq_true', hopen,
    TypeDefinition.isEffectivelySealed_iff]
  exact ⟨fun ⟨h, h', hu, hc, hr⟩ => ⟨⟨h, h'⟩, ⟨hu, hc⟩, hr⟩,
    fun ⟨⟨h, h'⟩, ⟨hu, hc⟩, hr⟩ => ⟨h, h', hu, hc, hr⟩⟩

instance (left right : TypeDefinition) : Decidable (Closes left right) :=
  decidable_of_iff _ closes_iff.symm

/-- The rule reports the pairs that close, each once. -/
theorem sealing_eq (left right : TypeDefinition) : sealing left right =
    if Closes left right then [.sealing right.fullName right.isSealed] else [] := by
  unfold sealing
  by_cases hinterface : (left.isInterface || right.isInterface) = true
  · have hopen : ¬Closes left right := fun h => by
      rw [(closes_iff.1 h).1] at hinterface
      cases hinterface
    rw [if_pos hinterface, if_neg hopen]
  · rw [if_neg hinterface]
    rw [Bool.not_eq_true] at hinterface
    simp only [closes_iff, hinterface, true_and]

/-- A static constructor is none that a derived type can call, and neither is a field of that name. -/
example :
    let d : TypeRef := .mk "" "Box" (.assembly ⟨"Lib", ⟨1, 0, 0, 0⟩, none⟩) .definition
    let constructor (attributes : UInt32) : Member :=
      ⟨".ctor", d, .family, .method ⟨attributes, [], [], none⟩⟩
    let field : Member := ⟨".ctor", d, .publicScope, .field none⟩
    Closes ⟨d, 0, [], [field, constructor 0], []⟩
      ⟨d, 0, [], [field, constructor Method.staticFlag], []⟩ := by decide

theorem flatMap_sealing (ps : List (TypeDefinition × TypeDefinition)) :
    ps.flatMap (fun p => sealing p.1 p.2) =
      (ps.filter fun p => Closes p.1 p.2).map fun p => .sealing p.2.fullName p.2.isSealed := by
  induction ps with
  | nil => rfl
  | cons p ps ih =>
    rw [List.flatMap_cons, sealing_eq, ih, List.filter_cons]
    by_cases h : Closes p.1 p.2 <;> simp [h]

/-! ## Other differences -/

theorem kind_sealing {left right : TypeDefinition} :
    ∀ d ∈ sealing left right, d.kind = "CannotSealType" := by
  intro d hd
  rw [sealing_eq] at hd
  split at hd
  · rw [List.mem_singleton.1 hd, Difference.kind]
  · cases hd

theorem kind_compareParameter {c : Comparer} {owner : ParameterOwner} {p q : GenericParameter} :
    ∀ d ∈ compareParameter c owner p q, d.kind ≠ "CannotSealType" := by
  intro d hd
  rcases List.mem_append.1 hd with hd | hd
  · have hconstraint : ∃ change text, d = .constraint change owner.fullName p.name text := by
      rcases List.mem_append.1 hd with hd | hd
      · obtain ⟨text, -, rfl⟩ := List.mem_map.1 hd
        exact ⟨_, text, rfl⟩
      · split at hd
        · cases hd
        · obtain ⟨text, -, rfl⟩ := List.mem_map.1 hd
          exact ⟨_, text, rfl⟩
    obtain ⟨change, text, rfl⟩ := hconstraint
    simp [Difference.kind]
  · simp only [varianceChange] at hd
    split at hd
    · cases hd
    · rw [List.mem_singleton.1 hd]
      simp [Difference.kind]

theorem kind_compareParameters {c : Comparer} {owner : ParameterOwner}
    {left right : List GenericParameter} :
    ∀ d ∈ (compareParameters c owner left right).1, d.kind ≠ "CannotSealType" := by
  unfold compareParameters
  split
  · intro d hd
    obtain ⟨p, -, hd⟩ := List.mem_flatMap.1 hd
    exact kind_compareParameter d hd
  · exact nofun

end Rules

/-! ## Trees -/

/-- No rule reports such a difference on members. -/
theorem Rule.kind_onMemberNode {c : Comparer} {m : MemberNode} (rule : Rule) :
    ∀ d ∈ (rule.onMemberNode c m).differences, d.kind ≠ "CannotSealType" := by
  intro d hd
  cases m with
  | both left right =>
    cases rule with
    | sealing => cases hd
    | genericConstraints =>
      change d ∈ (Rules.methodParameters c left right).1 at hd
      unfold Rules.methodParameters at hd
      split at hd
      · exact Rules.kind_compareParameters d hd
      · cases hd
  | _ => cases hd

/-- On a type, it is the sealing rule that reports them, if the type is on both sides. -/
theorem TypeNode.filter_judge (c : Comparer) (n : TypeNode) :
    (n.judge Rule.all c).differences.filter (·.kind = "CannotSealType") =
      n.both?.toList.flatMap fun p => Rules.sealing p.1 p.2 := by
  have hmembers : (Verdict.concat (n.members.entries.flatMap fun m =>
      Rule.all.map (Rule.onMemberNode c m))).differences.filter (·.kind = "CannotSealType") = [] := by
    refine List.filter_eq_nil_iff.2 fun d hd => ?_
    obtain ⟨v, hv, hd⟩ := List.mem_flatMap.1 hd
    obtain ⟨m, -, hv⟩ := List.mem_flatMap.1 hv
    obtain ⟨rule, -, rfl⟩ := List.mem_map.1 hv
    simpa using rule.kind_onMemberNode d hd
  rw [judge, Verdict.append, List.filter_append, hmembers, List.append_nil]
  obtain ⟨types, members⟩ := n
  cases types with
  | both l r =>
    have hparameters : (Rules.typeParameters c l.type r.type).1.filter
        (·.kind = "CannotSealType") = [] :=
      List.filter_eq_nil_iff.2 fun d hd => by simpa using Rules.kind_compareParameters d hd
    have hsealing : (Rules.sealing l.type r.type).filter (·.kind = "CannotSealType") =
        Rules.sealing l.type r.type :=
      List.filter_eq_self.2 fun d hd => by simpa using Rules.kind_sealing d hd
    show (Rules.sealing l.type r.type ++ ((Rules.typeParameters c l.type r.type).1 ++ [])).filter _ =
      Rules.sealing l.type r.type ++ []
    rw [List.filter_append, List.append_nil, hparameters, hsealing]
  | _ => rfl

/-- Of a tree, one for each type on both sides that closes is reported, in the order of the types.
-/
theorem SurfaceTree.filter_judge (tree : SurfaceTree) :
    (tree.judge Rule.all).differences.filter (·.kind = "CannotSealType") =
      ((tree.types.filterMap TypeNode.both?).filter fun p => Rules.Closes p.1 p.2).map
        fun p => .sealing p.2.fullName p.2.isSealed := by
  rw [← Rules.flatMap_sealing, List.filterMap_eq_flatMap_toList, List.flatMap_assoc, judge,
    Verdict.concat, List.flatMap_map, List.filter_flatMap]
  exact List.flatMap_congr fun n _ => n.filter_judge _

/-! ## Members that take part -/

/-- The selection of the same types without members. -/
def Selection.memberless (s : Selection) : Selection :=
  { s with includesMember := fun _ => false }

/-- The node of the same types without members. -/
def TypeNode.memberless (n : TypeNode) : TypeNode :=
  ⟨n.types, .empty⟩

theorem TypeNode.addMembers_memberless (s : Selection) (side : Side) (t : TypeDefinition)
    (members : BucketIndex MemberNode) : addMembers s.memberless side t members = members := by
  simp [addMembers, Selection.memberless]

namespace SurfaceTree

theorem register_memberless (s : Selection) (side : Side) (nodes : BucketIndex TypeNode)
    (d : Definition) : register s.memberless side (nodes.map TypeNode.memberless) d =
      (register s side nodes d).map TypeNode.memberless := by
  have hsingle : TypeNode.single s.memberless side d = (TypeNode.single s side d).memberless := by
    rw [TypeNode.single, TypeNode.addMembers_memberless]
    rfl
  rw [register, register, hsingle]
  refine BucketIndex.upsert_map (fun n _ => rfl) fun n => ?_
  rw [TypeNode.set, TypeNode.addMembers_memberless]
  rfl

theorem types_memberless (s : Selection) (definitions : DefinitionId → Option TypeDefinition)
    (left right : Loaded) : (ofBuilds s.memberless definitions left right).types =
      (ofBuilds s definitions left right).types.map TypeNode.memberless := by
  have hfold (side : Side) (nodes : BucketIndex TypeNode) (ds : List Definition) :
      ds.foldl (register s.memberless side) (nodes.map TypeNode.memberless) =
        (ds.foldl (register s side) nodes).map TypeNode.memberless :=
    List.foldl_hom _ fun nodes d => register_memberless s side nodes d
  have hsame (l : Loaded) : s.memberless.registered definitions l = s.registered definitions l :=
    Selection.registered_eq_of_includesType rfl
  have hempty : (BucketIndex.empty : BucketIndex TypeNode) =
      BucketIndex.empty.map TypeNode.memberless := rfl
  rw [types, types, nodes_ofBuilds, nodes_ofBuilds, hsame, hsame, hempty, hfold, hfold]
  rfl

/-- Of two builds, one difference is reported for each type on both sides that could be derived from
and no longer can, in the order of the types, and it says whether the new type is declared sealed.
Which members take part does not matter. -/
theorem sealing_exact (s : Selection) (definitions : DefinitionId → Option TypeDefinition)
    (left right : Loaded) :
    let reported (s : Selection) :=
      ((ofBuilds s definitions left right).judge Rule.all).differences.filter
        (·.kind = "CannotSealType")
    let paired := (ofBuilds s definitions left right).types.filterMap TypeNode.both?
    reported s = (paired.filter fun p => Rules.Closes p.1 p.2).map
      (fun p => .sealing p.2.fullName p.2.isSealed) ∧
    ∀ includesMember, reported { s with includesMember } = reported s := by
  intro reported paired
  have hreported (s : Selection) : reported s =
      (((ofBuilds s.memberless definitions left right).types.filterMap TypeNode.both?).filter
        fun p => Rules.Closes p.1 p.2).map fun p => .sealing p.2.fullName p.2.isSealed := by
    rw [types_memberless, List.filterMap_map]
    exact filter_judge _
  exact ⟨filter_judge _, fun includesMember => (hreported _).trans (hreported s).symm⟩

end SurfaceTree

end ApiEvolution
