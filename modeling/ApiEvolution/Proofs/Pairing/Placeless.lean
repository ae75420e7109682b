import ApiEvolution.Proofs.Pairing.Content
import ApiEvolution.Proofs.Pairing.OuterJoin
import ApiEvolution.Proofs.Rules.Placeless

/-!
# Differences path by path

A tree is judged node by node, and a node holds what was put there of one path. So the differences
are those of each path of the old build in turn (`Selection.judgeAt`), and of each path nothing
matters but the blurred types of it in their order (`SurfaceTree.differences_ofBuilds`).
-/

namespace ApiEvolution

/-! ## Nodes in no particular assembly -/

/-- A definition that stands nowhere. -/
def Definition.nowhere (t : TypeDefinition) : Definition :=
  ⟨⟨⟨0, 0⟩, []⟩, t⟩

def Definition.blurred (d : Definition) : Definition :=
  .nowhere d.type.blurred

namespace TypeNode

def blurred (n : TypeNode) : TypeNode :=
  ⟨n.types.map Definition.blurred, n.members.map (·.map Member.blurred)⟩

/-- All types and members of the node are proper. -/
abbrev Proper (n : TypeNode) : Prop :=
  n.Holds TypeDefinition.Proper Member.Proper

variable {s : Selection} {side : Side} {members : BucketIndex MemberNode}

theorem addMember_blurred (h : HoldMembers Member.Proper members) {m : Member} (hm : m.Proper) :
    addMember s side (members.map (·.map Member.blurred)) m.blurred =
      (addMember s side members m).map (·.map Member.blurred) := by
  have hhash : m.blurred.fingerprint = m.fingerprint := m.fingerprint_seen
  rw [addMember, addMember, hhash, Pair.single_map]
  refine BucketIndex.upsert_map (fun p hp => ?_) fun p => Pair.set_map Member.blurred p m side
  rw [Pair.representative_map]
  exact s.comparer.sameMember_blurred (h p hp _ p.representative_mem) hm

end TypeNode

/-- What is selected depends neither on assemblies nor on what references are bound to. -/
structure Selection.Blind (s : Selection) : Prop where
  types : ∀ f t, s.includesType (TypeDefinition.seen f t) = s.includesType t
  members : ∀ f m, s.includesMember (Member.seen f m) = s.includesMember m

theorem Selection.blind_visible : Selection.visible.Blind :=
  ⟨TypeDefinition.isVisible_seen, fun _ _ => rfl⟩

namespace TypeNode

variable {s : Selection} {side : Side} {members : BucketIndex MemberNode}

theorem addMembers_blurred (hs : s.Blind) (h : HoldMembers Member.Proper members) {t : TypeDefinition}
    (ht : t.Proper) : addMembers s side t.blurred (members.map (·.map Member.blurred)) =
      (addMembers s side t members).map (·.map Member.blurred) := by
  have hblind : s.includesMember ∘ Member.blurred = s.includesMember := funext (hs.members _)
  have hfilter : t.blurred.members.filter s.includesMember =
      (t.members.filter s.includesMember).map Member.blurred := by
    have hmembers : t.blurred.members = t.members.map Member.blurred := rfl
    rw [hmembers, List.filter_map, hblind]
  have hms : ∀ m ∈ t.members.filter s.includesMember, m.Proper := fun m hm =>
    ht.members m (List.mem_of_mem_filter hm)
  rw [addMembers, addMembers, hfilter]
  generalize t.members.filter s.includesMember = ms at hms
  induction ms generalizing members with
  | nil => rfl
  | cons m ms ih =>
    have hm := hms m List.mem_cons_self
    rw [List.map_cons, List.foldl_cons, List.foldl_cons, addMember_blurred h hm]
    exact ih (h.addMember hm) fun m' hm' => hms m' (List.mem_cons_of_mem m hm')

theorem single_blurred (hs : s.Blind) {d : Definition} (hd : d.type.Proper) :
    single s side d.blurred = (single s side d).blurred := by
  have hmembers : addMembers s side d.type.blurred _ = _ :=
    addMembers_blurred hs holdMembers_empty hd
  rw [single, single, blurred, Pair.single_map, ← hmembers]
  rfl

theorem set_blurred (hs : s.Blind) {n : TypeNode} (h : n.Proper) {d : Definition}
    (hd : d.type.Proper) : set s side d.blurred n.blurred = (set s side d n).blurred := by
  have hmembers : addMembers s side d.type.blurred _ = _ := addMembers_blurred hs h.members hd
  rw [set, set, blurred, blurred, Pair.set_map, ← hmembers]
  rfl

variable {regs : List (Side × Definition)}

theorem proper_of_gather (hregs : ∀ r ∈ regs, r.2.type.Proper) {n : TypeNode}
    (h : gather s regs = some n) : n.Proper := by
  induction regs using List.reverseRecOn generalizing n with
  | nil => cases h
  | append_singleton regs r ih =>
    have hproper := hregs r (List.mem_append_right _ (List.mem_singleton_self r))
    have hr : r.2.type.Holds TypeDefinition.Proper Member.Proper := ⟨hproper, hproper.members⟩
    rw [gather_concat, Option.some.injEq] at h
    subst h
    cases hm : gather s regs with
    | none => exact holds_single hr
    | some m => exact (ih (fun r' hr' => hregs r' (List.mem_append_left _ hr')) hm).set hr

/-- Gathering blurred definitions makes a blurred node. -/
theorem gather_blurred (hs : s.Blind) (hregs : ∀ r ∈ regs, r.2.type.Proper) :
    gather s (regs.map fun r => (r.1, r.2.blurred)) = (gather s regs).map blurred := by
  induction regs using List.reverseRecOn with
  | nil => rfl
  | append_singleton regs r ih =>
    have hr := hregs r (List.mem_append_right _ (List.mem_singleton_self r))
    have hregs' : ∀ r' ∈ regs, r'.2.type.Proper := fun r' hr' => hregs r' (List.mem_append_left _ hr')
    rw [List.map_append, List.map_singleton, gather_concat, gather_concat, ih hregs']
    cases hm : gather s regs with
    | none => exact congrArg some (single_blurred hs hr)
    | some m => exact congrArg some (set_blurred hs (proper_of_gather hregs' hm) hr)

/-! ## Judging nodes -/

variable (rules : List Rule) (c : Comparer)

/-- What the rules say about a node does not depend on assemblies. -/
theorem judge_blurred {n : TypeNode} (h : n.Proper) : n.blurred.judge rules c = n.judge rules c :=
  judge_map (F := Definition.blurred) (fun _ _ hd he r => r.onTypes_blurred c hd he)
    (fun _ _ hm hm' r => r.onMembers_blurred c hm hm') h

/-- Nothing is said about a node of the new build alone. -/
theorem judge_of_right {n : TypeNode} (htypes : n.types.left? = none)
    (hmembers : ∀ p ∈ n.members.entries, p.left? = none) : (n.judge rules c).differences = [] := by
  refine differences_judge_eq_nil (fun r => ?_) fun p hp r => ?_
  · obtain ⟨types, members⟩ := n
    cases types with
    | rightOnly e => rfl
    | _ => cases htypes
  · cases p with
    | rightOnly m => rfl
    | _ => cases hmembers _ hp

theorem addMembers_right {t : TypeDefinition} (h : ∀ p ∈ members.entries, p.left? = none) :
    ∀ p ∈ (addMembers s .right t members).entries, p.left? = none :=
  forall_addMembers h (fun p hp m _ _ => (p.get_set_opposite m .right).trans hp) fun _ _ => rfl

/-- What is put on the right side only stays there. -/
theorem right_of_gather {ds : List Definition} {n : TypeNode}
    (h : gather s (ds.map (.right, ·)) = some n) :
    n.types.left? = none ∧ ∀ p ∈ n.members.entries, p.left? = none := by
  refine ⟨?_, ?_⟩
  · have hleft := get?_of_gather h .left
    have hnone : (ds.map fun d => (Side.right, d)).filter (·.1 == .left) = [] :=
      List.filter_eq_nil_iff.2 fun r hr => by
        obtain ⟨d, -, rfl⟩ := List.mem_map.1 hr
        nofun
    rwa [hnone] at hleft
  · induction ds using List.reverseRecOn generalizing n with
    | nil => cases h
    | append_singleton ds d ih =>
      rw [List.map_append, List.map_singleton, gather_concat, Option.some.injEq] at h
      subst h
      cases hm : gather s (ds.map (.right, ·)) with
      | none => exact addMembers_right fun _ hp => absurd hp List.not_mem_nil
      | some m => exact addMembers_right (ih hm)

end TypeNode

/-! ## Judging trees -/

/-- What the rules say about the types of one path, of the old and of the new build. -/
def Selection.judgeAt (s : Selection) (rules : List Rule) (ls rs : List TypeDefinition) :
    List Difference :=
  (TypeNode.gather s (ls.map (fun t => (.left, .nowhere t)) ++
    rs.map fun t => (.right, .nowhere t))).elim [] fun n => (n.judge rules s.comparer).differences

theorem Selection.judgeAt_nil (s : Selection) (rules : List Rule) (rs : List TypeDefinition) :
    s.judgeAt rules [] rs = [] := by
  rw [judgeAt, List.map_nil, List.nil_append]
  cases h : TypeNode.gather s (rs.map fun t => (.right, .nowhere t)) with
  | none => rfl
  | some n =>
    have hmap : (rs.map fun t => (Side.right, Definition.nowhere t)) =
        (rs.map Definition.nowhere).map (.right, ·) := by
      rw [List.map_map]
      rfl
    rw [hmap] at h
    obtain ⟨htypes, hmembers⟩ := TypeNode.right_of_gather h
    exact TypeNode.judge_of_right rules s.comparer htypes hmembers

/-- The types of a path among those of a build. -/
def typesAt (path : List (String × String)) (ts : List TypeDefinition) : List TypeDefinition :=
  ts.filter (·.descriptor.path == path)

/-- What the rules say about the types of two builds, for each path of the old build in turn. -/
def Selection.differencesOf (s : Selection) (rules : List Rule) (ls rs : List TypeDefinition) :
    List Difference :=
  (ls.map (·.descriptor.path)).eraseDups.flatMap fun path =>
    s.judgeAt rules (typesAt path ls) (typesAt path rs)

/-- Only the order among types of one path matters. -/
theorem Selection.differencesOf_congr {s : Selection} {rules : List Rule}
    {ls rs rs' : List TypeDefinition} (h : ∀ path, typesAt path rs = typesAt path rs') :
    s.differencesOf rules ls rs = s.differencesOf rules ls rs' :=
  List.flatMap_congr fun path _ => by rw [h path]

theorem typesAt_of_not_mem {path : List (String × String)} {ts : List TypeDefinition}
    (h : path ∉ ts.map (·.descriptor.path)) : typesAt path ts = [] :=
  List.filter_eq_nil_iff.2 fun t ht hp => h (List.mem_map.2 ⟨t, ht, beq_iff_eq.1 hp⟩)

/-- A node is judged as the blurred types of its path are. -/
theorem Joined.differences_judge {s : Selection} {ls rs : List Definition}
    {nodes : BucketIndex TypeNode} (hs : s.Blind) (rules : List Rule)
    (h : Joined s (ls.map (.left, ·) ++ rs.map (.right, ·)) nodes)
    (hproper : ∀ d ∈ ls ++ rs, d.type.Proper) {n : TypeNode} (hn : n ∈ nodes.entries) :
    (n.judge rules s.comparer).differences =
      s.judgeAt rules (typesAt n.path (ls.map (·.type.blurred)))
        (typesAt n.path (rs.map (·.type.blurred))) := by
  have hgather := h.gathered n hn
  generalize n.path = path at hgather ⊢
  rw [List.filter_append, List.filter_map, List.filter_map] at hgather
  have hregs : ∀ r ∈ (ls.filter (·.path == path)).map (Side.left, ·) ++
      (rs.filter (·.path == path)).map (Side.right, ·), r.2.type.Proper := by
    intro r hr
    rcases List.mem_append.1 hr with hr | hr <;> obtain ⟨d, hd, rfl⟩ := List.mem_map.1 hr
    · exact hproper d (List.mem_append_left _ (List.mem_of_mem_filter hd))
    · exact hproper d (List.mem_append_right _ (List.mem_of_mem_filter hd))
  have hblurred : TypeNode.gather s
      ((ls.filter (·.path == path)).map (fun d => (Side.left, d.blurred)) ++
        (rs.filter (·.path == path)).map fun d => (Side.right, d.blurred)) = some n.blurred := by
    have hmap := TypeNode.gather_blurred hs hregs
    rw [List.map_append, List.map_map, List.map_map] at hmap
    exact hmap.trans (congrArg (Option.map TypeNode.blurred) hgather)
  have hside (side : Side) (ds : List Definition) :
      ((typesAt path (ds.map (·.type.blurred))).map fun t => (side, Definition.nowhere t)) =
        (ds.filter (·.path == path)).map fun d => (side, d.blurred) := by
    have hpath : ((fun t : TypeDefinition => t.descriptor.path == path) ∘
        fun d : Definition => d.type.blurred) = fun d => d.path == path := by
      funext d
      exact congrArg (· == path) (TypeRef.path_placeless _)
    rw [typesAt, List.filter_map, List.map_map, hpath]
    rfl
  rw [Selection.judgeAt, hside, hside, hblurred, Option.elim_some,
    TypeNode.judge_blurred rules s.comparer (TypeNode.proper_of_gather hregs hgather)]

/-- The differences of two builds depend on nothing but their blurred surfaces. -/
theorem SurfaceTree.differences_ofBuilds {s : Selection} (hs : s.Blind) (rules : List Rule)
    (definitions : DefinitionId → Option TypeDefinition) (left right : Loaded)
    (h : ∀ t ∈ s.surface definitions left.bound.assembly ++ s.surface definitions right.bound.assembly,
      t.Proper) :
    ((SurfaceTree.ofBuilds s definitions left right).judge rules).differences =
      s.differencesOf rules
        ((s.surface definitions left.bound.assembly).map TypeDefinition.blurred)
        ((s.surface definitions right.bound.assembly).map TypeDefinition.blurred) := by
  rw [← s.registered_types, ← s.registered_types] at h ⊢
  generalize hl : s.registered definitions left.bound = ls at h ⊢
  generalize hr : s.registered definitions right.bound = rs at h ⊢
  have hproper : ∀ d ∈ ls ++ rs, d.type.Proper := by
    intro d hd
    rw [← List.map_append] at h
    exact h _ (List.mem_map_of_mem hd)
  have hjoined := joined_ofBuilds s definitions left right fun d hd =>
    (hproper d (by rwa [hl, hr] at hd)).descriptor
  rw [hl, hr] at hjoined
  rw [List.map_map, List.map_map]
  let judgePath (path : List (String × String)) : List Difference :=
    s.judgeAt rules (typesAt path (ls.map (·.type.blurred))) (typesAt path (rs.map (·.type.blurred)))
  have hnodes : ((SurfaceTree.ofBuilds s definitions left right).judge rules).differences =
      ((SurfaceTree.ofBuilds s definitions left right).nodes.entries.map TypeNode.path).flatMap
        judgePath := by
    rw [List.flatMap_map, SurfaceTree.judge, Verdict.concat, List.flatMap_map]
    exact List.flatMap_congr fun n hn => hjoined.differences_judge hs rules hproper hn
  have hpaths : (ls.map fun d => d.type.blurred).map (·.descriptor.path) =
      ls.map Definition.path := by
    rw [List.map_map]
    exact List.map_congr_left fun d _ => TypeRef.path_placeless _
  -- paths of the new build alone lead to nothing
  have hnew : ((rs.map Definition.path).removeAll (ls.map Definition.path)).eraseDups.flatMap
      judgePath = [] := by
    refine List.flatMap_eq_nil_iff.2 fun path hpath => ?_
    have hno := (List.mem_filter.1 (List.mem_eraseDups.1 hpath)).2
    simp only [Bool.not_eq_true', List.elem_eq_mem, decide_eq_false_iff_not, ← hpaths] at hno
    simp only [judgePath, typesAt_of_not_mem hno, Selection.judgeAt_nil]
  rw [hnodes, hjoined.paths, List.map_append, List.map_map, List.map_map, List.eraseDups_append,
    List.flatMap_append]
  refine (congrArg _ hnew).trans ((List.append_nil _).trans ?_)
  rw [Selection.differencesOf]
  exact congrArg (fun paths => paths.eraseDups.flatMap judgePath) hpaths.symm

end ApiEvolution
