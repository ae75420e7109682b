import ApiEvolution.Proofs.Identity.Hashing
import ApiEvolution.Proofs.Pairing.Comparers
import ApiEvolution.Proofs.Pairing.Content
import ApiEvolution.Proofs.Pairing.Members

/-!
# Buckets stand for a linear scan

An entry keeps the bucket of the declaration that it was made for, while other declarations take
the place of that one. As they are the same declaration, and members and types that are the same
have one hash, the first entry of a bucket that is looked for is the first one of all. So a tree is
what a scan through the lists makes of the same definitions (`scanRegister`), which knows nothing of
hashes; the main statement is `SurfaceTree.lookups_ofBuilds`.

The invariant of the member nodes of one type is `TypeNode.Filed`; that of the type nodes is
`Joined`.
-/

namespace ApiEvolution

/-! ## Scanning a list -/

/-- Changes the first entry that is looked for, or adds one at the end. -/
def upsertFirst {α : Type} (wanted : α → Bool) (change : α → α) (new : α) : List α → List α
  | [] => [new]
  | x :: xs => if wanted x then change x :: xs else x :: upsertFirst wanted change new xs

theorem upsertFirst_eq {α : Type} (wanted : α → Bool) (change : α → α) (new : α) (xs : List α) :
    upsertFirst wanted change new xs =
      match xs.findIdx? wanted with
      | some i => xs.modify i change
      | none => xs ++ [new] := by
  induction xs with
  | nil => rfl
  | cons x xs ih =>
    rw [upsertFirst, List.findIdx?_cons, ih]
    cases hx : wanted x with
    | true => rfl
    | false => cases xs.findIdx? wanted <;> rfl

/-- Scanning in step with what is made of the entries. -/
theorem upsertFirst_map {α β : Type} {f : α → β} {wanted : α → Bool} {wanted' : β → Bool}
    {change : α → α} {change' : β → β} {new : α} {xs : List α}
    (hwanted : ∀ x ∈ xs, wanted' (f x) = wanted x)
    (hchange : ∀ x ∈ xs, change' (f x) = f (change x)) :
    upsertFirst wanted' change' (f new) (xs.map f) = (upsertFirst wanted change new xs).map f := by
  induction xs with
  | nil => rfl
  | cons x xs ih =>
    obtain ⟨hx, hxs⟩ := List.forall_mem_cons.1 hwanted
    obtain ⟨hx', hxs'⟩ := List.forall_mem_cons.1 hchange
    rw [List.map_cons, upsertFirst, upsertFirst, hx, hx', ih hxs hxs']
    split <;> rfl

/-- Where a bucket stands for the scan, it does so for the change, too. -/
theorem BucketIndex.entries_upsert {α : Type} {b : BucketIndex α} {hash : UInt64}
    {wanted : α → Bool} (h : b.position? hash wanted = b.scan? wanted) (change : α → α) (new : α) :
    (b.upsert hash wanted change new).entries = upsertFirst wanted change new b.entries := by
  rw [upsert, h, scan?, upsertFirst_eq]
  cases b.entries.findIdx? wanted <;> rfl

/-! ## Member nodes -/

/-- The node is that of the member. -/
def Selection.wantsMember (s : Selection) (m : Member) (p : MemberNode) : Bool :=
  s.comparer.sameMember p.representative m

/-- Puts a member into the node of its declaration, going through all nodes. -/
def scanMember (c : Comparer) (side : Side) (ps : List MemberNode) (m : Member) : List MemberNode :=
  upsertFirst (fun p => c.sameMember p.representative m) (·.set m side) (.single m side) ps

/-- The members that a type puts into a node, one after the other. -/
def Selection.puts (s : Selection) (r : Side × Definition) : List (Side × Member) :=
  (s.included r.2.type).map (r.1, ·)

namespace TypeNode

/-- The member nodes after these members were put there. -/
def membersAfter (s : Selection) (puts : List (Side × Member)) : BucketIndex MemberNode :=
  puts.foldl (fun b p => addMember s p.1 b p.2) .empty

/-- The buckets are those of the hashes of the representatives, they part the nodes, and all members
are declared by what goes by its own path. -/
structure Filed (s : Selection) (b : BucketIndex MemberNode) : Prop where
  indexed : b.Indexed s.memberHash
  parted : b.Parted
  faithful : HoldMembers (fun m => m.declaringType.Faithful) b

theorem filed_empty (s : Selection) : Filed s .empty :=
  ⟨BucketIndex.indexed_empty, BucketIndex.parted_empty, holdMembers_empty⟩

namespace Filed

variable {s : Selection} {b : BucketIndex MemberNode} {m : Member}

/-- A node that the member is looked for in has its hash, whoever made it. -/
theorem position?_eq_scan? (h : Filed s b) (hm : m.declaringType.Faithful) :
    b.position? (s.hash m.fingerprint) (s.wantsMember m) = b.scan? (s.wantsMember m) := by
  refine BucketIndex.position?_eq_scan? h.indexed fun p hp hw => ?_
  have hrep := h.faithful p hp p.representative p.representative_mem
  rw [Selection.memberHash, Comparer.fingerprint_eq_of_sameMember hrep hm hw]

theorem addMember (h : Filed s b) (side : Side) (hm : m.declaringType.Faithful) :
    Filed s (addMember s side b m) ∧
      (TypeNode.addMember s side b m).entries = scanMember s.comparer side b.entries m :=
  ⟨⟨(addMember_eq h.indexed m).2, h.parted.upsert _ _ _ _, h.faithful.addMember hm⟩,
    BucketIndex.entries_upsert (h.position?_eq_scan? hm) _ _⟩

theorem foldl_addMember (h : Filed s b) (side : Side) {ms : List Member}
    (hms : ∀ m ∈ ms, m.declaringType.Faithful) :
    Filed s (ms.foldl (TypeNode.addMember s side) b) ∧
      (ms.foldl (TypeNode.addMember s side) b).entries =
        ms.foldl (scanMember s.comparer side) b.entries := by
  induction ms generalizing b with
  | nil => exact ⟨h, rfl⟩
  | cons m ms ih =>
    obtain ⟨hm, hms⟩ := List.forall_mem_cons.1 hms
    obtain ⟨hfiled, hentries⟩ := h.addMember side hm
    rw [List.foldl_cons, List.foldl_cons, ← hentries]
    exact ih hfiled hms

end Filed

theorem filed_membersAfter {s : Selection} {puts : List (Side × Member)}
    (h : ∀ p ∈ puts, p.2.declaringType.Faithful) : Filed s (membersAfter s puts) := by
  induction puts using List.reverseRecOn with
  | nil => exact filed_empty s
  | append_singleton puts p ih =>
    obtain ⟨hputs, hp⟩ := List.forall_mem_append.1 h
    rw [membersAfter, List.foldl_append]
    exact ((ih hputs).addMember p.1 (hp p (List.mem_singleton_self p))).1

theorem addMembers_membersAfter (s : Selection) (puts : List (Side × Member))
    (r : Side × Definition) :
    addMembers s r.1 r.2.type (membersAfter s puts) = membersAfter s (puts ++ s.puts r) := by
  rw [membersAfter, membersAfter, List.foldl_append, Selection.puts, List.foldl_map]
  rfl

/-- The member nodes of a type are made by the members of all that was put into its node. -/
theorem members_of_gather {s : Selection} {regs : List (Side × Definition)} {n : TypeNode}
    (h : gather s regs = some n) : n.members = membersAfter s (regs.flatMap s.puts) := by
  induction regs using List.reverseRecOn generalizing n with
  | nil => cases h
  | append_singleton regs r ih =>
    rw [gather_concat, Option.some.injEq] at h
    subst h
    rw [List.flatMap_append, List.flatMap_singleton, ← addMembers_membersAfter]
    cases hregs : gather s regs with
    | none =>
      rw [eq_nil_of_gather hregs]
      rfl
    | some n =>
      rw [← ih hregs]
      rfl

end TypeNode

/-! ## Type nodes -/

/-- The node is that of the definition. -/
def Selection.wantsType (s : Selection) (d : Definition) (n : TypeNode) : Bool :=
  s.comparer.sameType n.types.representative.type.descriptor d.type.descriptor

/-- A type node without buckets. -/
abbrev ScannedNode := Pair Definition × List MemberNode

/-- What a node has, apart from its buckets. -/
def TypeNode.content (n : TypeNode) : ScannedNode :=
  (n.types, n.members.entries)

/-- Puts a definition and its members into the nodes of their declarations, going through all
nodes. -/
def scanRegister (c : Comparer) (includesMember : Member → Bool) (nodes : List ScannedNode)
    (r : Side × Definition) : List ScannedNode :=
  let members (ps : List MemberNode) : List MemberNode :=
    (r.2.type.members.filter includesMember).foldl (scanMember c r.1) ps
  upsertFirst (fun n => c.sameType n.1.representative.type.descriptor r.2.type.descriptor)
    (fun n => (n.1.set r.2 r.1, members n.2)) (.single r.2 r.1, members []) nodes

namespace SurfaceTree

/-- The type nodes after these definitions were registered. -/
def nodesAfter (s : Selection) (regs : List (Side × Definition)) : BucketIndex TypeNode :=
  regs.foldl (fun nodes r => register s r.1 nodes r.2) .empty

/-- What the two builds bring, in the order in which it is registered. -/
def registrations (s : Selection) (definitions : DefinitionId → Option TypeDefinition)
    (left right : Loaded) : List (Side × Definition) :=
  (s.registered definitions left.bound).map (.left, ·) ++
    (s.registered definitions right.bound).map (.right, ·)

theorem nodes_eq_nodesAfter (s : Selection) (definitions : DefinitionId → Option TypeDefinition)
    (left right : Loaded) : (ofBuilds s definitions left right).nodes =
      nodesAfter s (registrations s definitions left right) := by
  rw [nodes_ofBuilds, nodesAfter, registrations, List.foldl_append, List.foldl_map, List.foldl_map]

variable {s : Selection} {regs : List (Side × Definition)}

theorem joined_nodesAfter (h : ∀ r ∈ regs, r.2.type.Resembles) :
    Joined s regs (nodesAfter s regs) := by
  induction regs using List.reverseRecOn with
  | nil => exact Joined.nil s
  | append_singleton regs r ih =>
    obtain ⟨hregs, hr⟩ := List.forall_mem_append.1 h
    rw [nodesAfter, List.foldl_append]
    exact (ih hregs).register r.1 (fun q hq => (hregs q hq).chain)
      (List.forall_mem_singleton.1 hr).chain

theorem parted_nodesAfter (s : Selection) (regs : List (Side × Definition)) :
    (nodesAfter s regs).Parted := by
  induction regs using List.reverseRecOn with
  | nil => exact BucketIndex.parted_empty
  | append_singleton regs r ih =>
    rw [nodesAfter, List.foldl_append]
    exact ih.upsert _ _ _ _

theorem position?_nodesAfter (h : ∀ r ∈ regs, r.2.type.Resembles) {d : Definition}
    (hd : d.type.Resembles) :
    (nodesAfter s regs).position? (s.hash d.type.descriptor.fingerprint) (s.wantsType d) =
      (nodesAfter s regs).scan? (s.wantsType d) :=
  (joined_nodesAfter h).position?_eq_scan? (fun r hr => (h r hr).chain) hd.chain

end SurfaceTree

theorem TypeDefinition.Resembles.faithful {t : TypeDefinition} (h : t.Resembles) {m : Member}
    (hm : m ∈ t.members) : m.declaringType.Faithful :=
  TypeRef.faithful_of_isDefinitionChain _ (h.declaringType hm)

namespace TypeNode

variable {s : Selection} {d : Definition}

theorem faithful_of_mem_included (hd : d.type.Resembles) :
    ∀ m ∈ s.included d.type, m.declaringType.Faithful :=
  fun _ hm => hd.faithful (List.mem_of_mem_filter hm)

theorem content_single (side : Side) (hd : d.type.Resembles) : (single s side d).content =
    (.single d side, (s.included d.type).foldl (scanMember s.comparer side) []) :=
  congrArg (Prod.mk _) ((filed_empty s).foldl_addMember side (faithful_of_mem_included hd)).2

theorem Filed.content_set {n : TypeNode} (h : Filed s n.members) (side : Side)
    (hd : d.type.Resembles) : (set s side d n).content =
      (n.types.set d side,
        (s.included d.type).foldl (scanMember s.comparer side) n.members.entries) :=
  congrArg (Prod.mk _) (h.foldl_addMember side (faithful_of_mem_included hd)).2

end TypeNode

namespace SurfaceTree

variable {s : Selection} {regs : List (Side × Definition)}

/-- The member nodes of a type node, as members were put there. -/
theorem members_nodesAfter (h : ∀ r ∈ regs, r.2.type.Resembles) {n : TypeNode}
    (hn : n ∈ (nodesAfter s regs).entries) :
    let puts := (regs.filter (·.2.path == n.path)).flatMap s.puts
    n.members = TypeNode.membersAfter s puts ∧ ∀ p ∈ puts, p.2.declaringType.Faithful := by
  refine ⟨TypeNode.members_of_gather ((joined_nodesAfter h).gathered n hn), fun p hp => ?_⟩
  obtain ⟨r, hr, hp⟩ := List.mem_flatMap.1 hp
  obtain ⟨m, hm, rfl⟩ := List.mem_map.1 hp
  exact TypeNode.faithful_of_mem_included (h r (List.mem_of_mem_filter hr)) m hm

/-- What the scan does to the content is what is done to the nodes. -/
theorem scanRegister_content {nodes : List TypeNode} {r : Side × Definition}
    (hnodes : ∀ n ∈ nodes, TypeNode.Filed s n.members) (hr : r.2.type.Resembles) :
    scanRegister s.comparer s.includesMember (nodes.map TypeNode.content) r =
      (upsertFirst (s.wantsType r.2) (TypeNode.set s r.1 r.2) (.single s r.1 r.2) nodes).map
        TypeNode.content := by
  have hset : ∀ n ∈ nodes, (n.types.set r.2 r.1,
      (s.included r.2.type).foldl (scanMember s.comparer r.1) n.members.entries) =
        (TypeNode.set s r.1 r.2 n).content :=
    fun n hn => ((hnodes n hn).content_set r.1 hr).symm
  change upsertFirst _
    (fun n : ScannedNode =>
      (n.1.set r.2 r.1, (s.included r.2.type).foldl (scanMember s.comparer r.1) n.2))
    (Pair.single r.2 r.1, (s.included r.2.type).foldl (scanMember s.comparer r.1) []) _ = _
  rw [← TypeNode.content_single r.1 hr]
  exact upsertFirst_map (fun _ _ => rfl) hset

/-- What the nodes have is what a scan makes of the same definitions. -/
theorem content_nodesAfter (h : ∀ r ∈ regs, r.2.type.Resembles) :
    (nodesAfter s regs).entries.map TypeNode.content =
      regs.foldl (scanRegister s.comparer s.includesMember) [] := by
  induction regs using List.reverseRecOn with
  | nil => rfl
  | append_singleton regs r ih =>
    obtain ⟨hregs, hr⟩ := List.forall_mem_append.1 h
    have hr := List.forall_mem_singleton.1 hr
    have hentries : (nodesAfter s (regs ++ [r])).entries =
        upsertFirst (s.wantsType r.2) (TypeNode.set s r.1 r.2) (.single s r.1 r.2)
          (nodesAfter s regs).entries := by
      rw [nodesAfter, List.foldl_append]
      exact BucketIndex.entries_upsert (position?_nodesAfter hregs hr) _ _
    have hfiled : ∀ n ∈ (nodesAfter s regs).entries, TypeNode.Filed s n.members := by
      intro n hn
      obtain ⟨hmembers, hputs⟩ := members_nodesAfter hregs hn
      exact hmembers ▸ TypeNode.filed_membersAfter hputs
    rw [List.foldl_append, ← ih hregs, hentries, List.foldl_cons, List.foldl_nil,
      scanRegister_content hfiled hr]

theorem resembles_of_mem_registrations {definitions : DefinitionId → Option TypeDefinition}
    {left right : Loaded} (hleft : ∀ t ∈ left.assembly.topLevel, t.Resembles)
    (hright : ∀ t ∈ right.assembly.topLevel, t.Resembles)
    (hdefinitions : ∀ id t, definitions id = some t → t.Resembles) :
    ∀ r ∈ registrations s definitions left right, r.2.type.Resembles := by
  intro r hr
  rcases List.mem_append.1 hr with hr | hr
  · obtain ⟨d, hd, rfl⟩ := List.mem_map.1 hr
    exact Selection.resembles_of_topLevel (Loaded.resembles_bound hleft) hdefinitions hd
  · obtain ⟨d, hd, rfl⟩ := List.mem_map.1 hr
    exact Selection.resembles_of_topLevel (Loaded.resembles_bound hright) hdefinitions hd

/-- Builds of declared types are registered one definition after the other. Whatever the hash is,
after each of them the buckets part the type nodes, and a lookup in a bucket finds what a scan of
all nodes finds; and so it is for the member nodes of each type after each member. Therefore the
tree has what a scan through the lists makes, and any other hash makes a tree that has the same. -/
theorem lookups_ofBuilds (s : Selection) (definitions : DefinitionId → Option TypeDefinition)
    {left right : Loaded} (hleft : ∀ t ∈ left.assembly.topLevel, t.Resembles)
    (hright : ∀ t ∈ right.assembly.topLevel, t.Resembles)
    (hdefinitions : ∀ id t, definitions id = some t → t.Resembles) :
    let regs := registrations s definitions left right
    let tree := ofBuilds s definitions left right
    tree.nodes = nodesAfter s regs ∧
      (∀ past, past <+: regs → (nodesAfter s past).Parted ∧ ∀ r ∈ regs,
        (nodesAfter s past).position? (s.hash r.2.type.descriptor.fingerprint) (s.wantsType r.2) =
          (nodesAfter s past).scan? (s.wantsType r.2)) ∧
      (∀ n ∈ tree.types,
        let puts := (regs.filter (·.2.path == n.path)).flatMap s.puts
        n.members = TypeNode.membersAfter s puts ∧
          ∀ past, past <+: puts → (TypeNode.membersAfter s past).Parted ∧ ∀ p ∈ puts,
            (TypeNode.membersAfter s past).position? (s.hash p.2.fingerprint) (s.wantsMember p.2) =
              (TypeNode.membersAfter s past).scan? (s.wantsMember p.2)) ∧
      tree.types.map TypeNode.content =
        regs.foldl (scanRegister s.comparer s.includesMember) [] ∧
      ∀ hash, let other := ofBuilds { s with hash } definitions left right
        other.types.map TypeNode.content = tree.types.map TypeNode.content ∧
          other.assemblies = tree.assemblies ∧ other.retained = tree.retained ∧
          other.diagnostics = tree.diagnostics := by
  intro regs tree
  have hnodes : tree.nodes = nodesAfter s regs := nodes_eq_nodesAfter s definitions left right
  have hregs : ∀ r ∈ regs, r.2.type.Resembles :=
    resembles_of_mem_registrations hleft hright hdefinitions
  have hcontent (s : Selection) : (ofBuilds s definitions left right).types.map TypeNode.content =
      (registrations s definitions left right).foldl
        (scanRegister s.comparer s.includesMember) [] := by
    rw [types, nodes_eq_nodesAfter]
    exact content_nodesAfter (resembles_of_mem_registrations hleft hright hdefinitions)
  refine ⟨hnodes, fun past hpast => ⟨parted_nodesAfter s past, fun r hr => ?_⟩, fun n hn => ?_,
    hcontent s, fun hash => ⟨?_, rfl, rfl, rfl⟩⟩
  · exact position?_nodesAfter (fun q hq => hregs q (hpast.subset hq)) (hregs r hr)
  · rw [types, hnodes] at hn
    obtain ⟨hmembers, hputs⟩ := members_nodesAfter hregs hn
    refine ⟨hmembers, fun past hpast => ?_⟩
    have hfiled : TypeNode.Filed s (TypeNode.membersAfter s past) :=
      TypeNode.filed_membersAfter fun p hp => hputs p (hpast.subset hp)
    exact ⟨hfiled.parted, fun p hp => hfiled.position?_eq_scan? (hputs p hp)⟩
  · have hsame (l : Loaded) : Selection.registered { s with hash } definitions l =
        s.registered definitions l := Selection.registered_eq_of_includesType rfl
    rw [hcontent, hcontent, registrations, registrations, hsame, hsame]

/-- Two builds of a library with a box and its sizes, under a hash that puts everything into one
bucket and under one that tells some things apart. -/
theorem lookups_ofBuilds_stocked :
    let sizes (names : List String) : List MemberDeclaration := names.map size
    let left := stocked 0 [("Box", sizes ["Width", "Height"]), ("Lid", [])]
    let right := stocked 1 [("Lid", sizes ["Width"]), ("Box", sizes ["Height", "Depth"])]
    let one := ofBuilds { Selection.visible with hash := fun _ => 0 } (fun _ => none) left right
    let other := ofBuilds { Selection.visible with hash := lengthHash } (fun _ => none) left right
    one.nodes.buckets = [(0, [0, 1])] ∧
      one.types.map (·.members.buckets) = [[(0, [0, 1, 2])], [(0, [0])]] ∧
      other.types.map TypeNode.content = one.types.map TypeNode.content := by
  intro sizes left right one other
  have hleft : ∀ t ∈ left.assembly.topLevel, t.Resembles :=
    fun t ht => Assembly.OfDeclaration.topLevel ⟨_, rfl⟩ ht
  have hright : ∀ t ∈ right.assembly.topLevel, t.Resembles :=
    fun t ht => Assembly.OfDeclaration.topLevel ⟨_, rfl⟩ ht
  obtain ⟨-, -, -, -, hother⟩ := lookups_ofBuilds { Selection.visible with hash := fun _ => 0 }
    (fun _ => none) hleft hright nofun
  exact ⟨by decide +kernel, by decide +kernel, (hother lengthHash).1⟩

end SurfaceTree

end ApiEvolution
