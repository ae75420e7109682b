import ApiEvolution.Proofs.Identity.Hashing
import ApiEvolution.Proofs.Pairing.Renaming
import ApiEvolution.Proofs.Rules.Reflexivity

/-!
# Pairing copies of one surface

Each side of a comparison may hold copies of the same declarations, renamed in its own way. If the
declarations are told apart (`Comparer.TellsApart`), copies of different ones never meet: a node
holds copies of one definition, and each of its member nodes copies of one member of it
(`TypeNode.Copies`). Then no rule finds a difference (`SurfaceTree.differences_of_copies`).
-/

namespace ApiEvolution

/-! ## Pairs -/

namespace Pair

variable {α : Type} {copy : Side → α → α} {x : α} {p : Pair α}

/-- What is on a side of the pair is the copy of `x` for this side. -/
def HoldsCopies (copy : Side → α → α) (x : α) (p : Pair α) : Prop :=
  ∀ side y, p.get? side = some y → y = copy side x

theorem holdsCopies_single (copy : Side → α → α) (x : α) (side : Side) :
    (single (copy side x) side).HoldsCopies copy x := by
  intro side' y hy
  cases side <;> cases side' <;> cases hy <;> rfl

theorem HoldsCopies.set (h : p.HoldsCopies copy x) (side : Side) :
    (p.set (copy side x) side).HoldsCopies copy x := by
  intro side' y hy
  by_cases hside : side = side'
  · subst hside
    rw [get_set] at hy
    cases hy
    rfl
  · obtain rfl := Side.eq_opposite_of_ne hside
    rw [get_set_opposite] at hy
    exact h _ y hy

theorem HoldsCopies.representative (h : p.HoldsCopies copy x) :
    ∃ side, p.representative = copy side x := by
  cases p with
  | leftOnly y => exact ⟨.left, h .left y rfl⟩
  | rightOnly y => exact ⟨.right, h .right y rfl⟩
  | both y _ => exact ⟨.left, h .left y rfl⟩

end Pair

/-! ## Nodes -/

/-- No two of the definitions have one path, and no two members of one of them are the same. -/
structure Comparer.TellsApart (c : Comparer) (ds : List Definition) : Prop where
  types : ∀ d ∈ ds, ∀ e ∈ ds, d.path = e.path → d = e
  members : ∀ d ∈ ds, ∀ m ∈ d.type.members, ∀ n ∈ d.type.members, c.sameMember m n → m = n

theorem Comparer.TellsApart.of_subset {c : Comparer} {ds es : List Definition}
    (h : c.TellsApart ds) (hsub : es ⊆ ds) : c.TellsApart es where
  types d hd e he := h.types d (hsub hd) e (hsub he)
  members d hd := h.members d (hsub hd)

/-- Definitions of different paths without overloads are told apart. -/
theorem Comparer.tellsApart_of_nodup (c : Comparer) {ds : List Definition}
    (hpaths : (ds.map Definition.path).Nodup)
    (hnames : ∀ names ∈ ds.map fun d => d.type.members.map (·.name), names.Nodup) :
    c.TellsApart ds where
  types d hd e he hpath := List.inj_on_of_nodup_map hpaths hd he hpath
  members d hd m hm n hn hsame := by
    rw [sameMember, Bool.and_eq_true, Bool.and_eq_true, beq_iff_eq] at hsame
    exact List.inj_on_of_nodup_map (hnames _ (List.mem_map_of_mem hd)) hm hn hsame.1.1

namespace TypeNode

variable {F : Side → Renaming} {s : Selection} {n : TypeNode} {d : Definition}

/-- Each member node holds copies of one member of the type. -/
def CopyMembers (F : Side → Renaming) (t : TypeDefinition) (members : BucketIndex MemberNode) :
    Prop :=
  ∀ p ∈ members.entries, ∃ m ∈ t.members, p.HoldsCopies (fun side => (F side).member) m

/-- The node holds copies of one definition and of members of it. -/
structure Copies (F : Side → Renaming) (d : Definition) (n : TypeNode) : Prop where
  types : n.types.HoldsCopies (fun side => (F side).definition) d
  members : CopyMembers F d.type n.members

/-- A member meets copies of itself only. -/
theorem CopyMembers.addMembers (hF : ∀ side, s.comparer.Overlooks (F side)) {t : TypeDefinition}
    (hapart : ∀ m ∈ t.members, ∀ n ∈ t.members, s.comparer.sameMember m n → m = n) {side : Side}
    {members : BucketIndex MemberNode} (h : CopyMembers F t members) :
    CopyMembers F t (addMembers s side ((F side).type t) members) := by
  refine forall_addMembers h (fun p ⟨m, hm, hp⟩ m' hm' hsame => ?_) fun m' hm' => ?_
  · rw [Renaming.members_type] at hm'
    obtain ⟨n, hn, rfl⟩ := List.mem_map.1 hm'
    obtain ⟨side', hrepresentative⟩ := hp.representative
    rw [hrepresentative, Comparer.sameMember_renamed (hF side') (hF side)] at hsame
    obtain rfl := hapart m hm n hn hsame
    exact ⟨m, hm, hp.set side⟩
  · rw [Renaming.members_type] at hm'
    obtain ⟨n, hn, rfl⟩ := List.mem_map.1 hm'
    exact ⟨n, hn, Pair.holdsCopies_single _ n side⟩

/-- There is nothing to be found between copies. -/
theorem Copies.differences_judge (h : n.Copies F d) (hF : ∀ side, s.comparer.Overlooks (F side))
    (rules : List Rule) : (n.judge rules s.comparer).differences = [] := by
  refine differences_judge_eq_nil (fun r => ?_) fun p hp r => ?_
  · obtain ⟨types, members⟩ := n
    cases types with
    | both l r' =>
      obtain rfl := h.types .left l rfl
      obtain rfl := h.types .right r' rfl
      exact (congrArg Verdict.differences
        (r.onTypes_renamed (hF .left) (hF .right) d.type d.type)).trans (r.onTypes_self _ d.type)
    | _ => rfl
  · obtain ⟨m, -, hm⟩ := h.members p hp
    cases p with
    | both l r' =>
      obtain rfl := hm .left l rfl
      obtain rfl := hm .right r' rfl
      exact (congrArg Verdict.differences
        (r.onMembers_renamed (hF .left) (hF .right) m m)).trans (r.onMembers_self _ m)
    | _ => rfl

end TypeNode

/-! ## Trees -/

namespace SurfaceTree

variable {F : Side → Renaming} {s : Selection} {all : List Definition}

/-- A definition meets copies of itself only. -/
theorem copies_foldl_register (hF : ∀ side, s.comparer.Overlooks (F side))
    (hapart : s.comparer.TellsApart all) (hfaithful : ∀ d ∈ all, d.type.descriptor.Faithful)
    {nodes : BucketIndex TypeNode} (h : ∀ n ∈ nodes.entries, ∃ d ∈ all, n.Copies F d) (side : Side)
    {ds : List Definition} (hds : ds ⊆ all) :
    ∀ n ∈ ((ds.map (F side).definition).foldl (register s side) nodes).entries,
      ∃ d ∈ all, n.Copies F d := by
  refine forall_foldl_register h (fun n ⟨d, hd, hn⟩ e' he' hsame => ?_) fun e' he' => ?_
  · obtain ⟨e, he, rfl⟩ := List.mem_map.1 he'
    obtain ⟨side', hrepresentative⟩ := hn.types.representative
    have hdescriptor (side : Side) (d : Definition) : ((F side).definition d).type.descriptor =
        (F side).ref d.type.descriptor := Renaming.descriptor_type d.type
    rw [hrepresentative, hdescriptor, hdescriptor, s.comparer.sameType_ref (hF side') (hF side)]
      at hsame
    have hpath := Comparer.path_eq_of_sameType _ _ (hfaithful d hd) (hfaithful e (hds he)) hsame
    obtain rfl := hapart.types d hd e (hds he) hpath
    exact ⟨d, hd, hn.types.set side, hn.members.addMembers hF (hapart.members d hd)⟩
  · obtain ⟨e, he, rfl⟩ := List.mem_map.1 he'
    have hmembers : TypeNode.CopyMembers F e.type .empty := fun p hp => absurd hp List.not_mem_nil
    exact ⟨e, hds he, Pair.holdsCopies_single _ e side,
      hmembers.addMembers hF (hapart.members e (hds he))⟩

/-- Builds that bring copies of definitions that are told apart have no differences. -/
theorem differences_of_copies {ds es : List Definition}
    (hF : ∀ side, s.comparer.Overlooks (F side)) (hapart : s.comparer.TellsApart (ds ++ es))
    (hfaithful : ∀ d ∈ ds ++ es, d.type.descriptor.Faithful)
    {definitions : DefinitionId → Option TypeDefinition} {l r : Loaded}
    (hl : s.registered definitions l.bound = ds.map (F .left).definition)
    (hr : s.registered definitions r.bound = es.map (F .right).definition)
    (rules : List Rule) : ((ofBuilds s definitions l r).judge rules).differences = [] := by
  have hempty : ∀ n ∈ (BucketIndex.empty : BucketIndex TypeNode).entries,
      ∃ d ∈ ds ++ es, n.Copies F d :=
    fun _ hn => absurd hn List.not_mem_nil
  have hleft := copies_foldl_register hF hapart hfaithful hempty .left
    (List.subset_append_left ds es)
  have hnodes := copies_foldl_register hF hapart hfaithful hleft .right
    (List.subset_append_right ds es)
  rw [← hl, ← hr, ← nodes_ofBuilds] at hnodes
  refine List.flatMap_eq_nil_iff.2 fun v hv => ?_
  obtain ⟨n, hn, rfl⟩ := List.mem_map.1 hv
  obtain ⟨d, -, hcopies⟩ := hnodes n hn
  exact hcopies.differences_judge hF rules

end SurfaceTree

end ApiEvolution
