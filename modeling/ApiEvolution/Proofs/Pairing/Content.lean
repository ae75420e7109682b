import Mathlib.Data.List.Basic
import ApiEvolution.Proofs.Pairing.BucketIndex
import ApiEvolution.Rules.Judge

/-!
# What the nodes of a tree hold

The nodes of a tree hold the types that are registered and members of these, and nothing else. So
what is true of all types that are registered, and of their members, is true of all that the nodes
hold (`SurfaceTree.holds_foldl_register`); and if no rule sees what is done to such types and
members, a node is judged as before (`TypeNode.judge_map`).
-/

namespace ApiEvolution

namespace Pair

variable {α β : Type} (f : α → β) (p : Pair α)

theorem representative_map : (p.map f).representative = f p.representative := by
  cases p <;> rfl

theorem set_map (x : α) (side : Side) : (p.map f).set (f x) side = (p.set x side).map f := by
  cases p <;> cases side <;> rfl

theorem single_map (x : α) (side : Side) : single (f x) side = (single x side).map f := by
  cases side <;> rfl

variable {p}

theorem forall_set {P : α → Prop} {x : α} {side : Side} (hp : ∀ y ∈ p.toList, P y) (hx : P x) :
    ∀ y ∈ (p.set x side).toList, P y := by
  cases p <;> cases side <;> simp_all [set, toList]

theorem forall_single {P : α → Prop} {x : α} {side : Side} (hx : P x) :
    ∀ y ∈ (single x side).toList, P y := by
  cases side <;> simp_all [single, toList]

theorem representative_mem (p : Pair α) : p.representative ∈ p.toList := by
  cases p <;> simp [representative, toList]

end Pair

/-- `P` holds of a type, and `Q` of its members. -/
structure TypeDefinition.Holds (P : TypeDefinition → Prop) (Q : Member → Prop) (t : TypeDefinition) :
    Prop where
  type : P t
  members : ∀ m ∈ t.members, Q m

namespace TypeNode

variable {P : TypeDefinition → Prop} {Q : Member → Prop}

/-- `Q` holds of all members of the nodes. -/
def HoldMembers (Q : Member → Prop) (members : BucketIndex MemberNode) : Prop :=
  ∀ p ∈ members.entries, ∀ m ∈ p.toList, Q m

/-- `P` holds of the types of the node, and `Q` of its members. -/
structure Holds (P : TypeDefinition → Prop) (Q : Member → Prop) (n : TypeNode) : Prop where
  types : ∀ d ∈ n.types.toList, P d.type
  members : HoldMembers Q n.members

variable {s : Selection} {side : Side} {members : BucketIndex MemberNode}

theorem holdMembers_empty : HoldMembers Q .empty :=
  fun _ hp => absurd hp List.not_mem_nil

theorem HoldMembers.addMember (h : HoldMembers Q members) {m : Member} (hm : Q m) :
    HoldMembers Q (addMember s side members m) :=
  BucketIndex.forall_upsert h (fun _ hp _ => Pair.forall_set hp hm) (Pair.forall_single hm)

/-- What holds of all member nodes holds of them still when the members of a type are put into
nodes. -/
theorem forall_addMembers {P : MemberNode → Prop} {t : TypeDefinition}
    (h : ∀ p ∈ members.entries, P p)
    (hset : ∀ p, P p → ∀ m ∈ t.members, s.comparer.sameMember p.representative m → P (p.set m side))
    (hsingle : ∀ m ∈ t.members, P (.single m side)) :
    ∀ p ∈ (addMembers s side t members).entries, P p := by
  have hsub : ∀ m ∈ t.members.filter s.includesMember, m ∈ t.members := fun m hm =>
    List.mem_of_mem_filter hm
  rw [addMembers]
  generalize t.members.filter s.includesMember = ms at hsub
  induction ms generalizing members with
  | nil => exact h
  | cons m ms ih =>
    have hm := hsub m List.mem_cons_self
    exact ih (BucketIndex.forall_upsert h (fun p hp => hset p hp m hm) (hsingle m hm))
      fun m' hm' => hsub m' (List.mem_cons_of_mem m hm')

theorem HoldMembers.addMembers (h : HoldMembers Q members) {t : TypeDefinition}
    (ht : ∀ m ∈ t.members, Q m) : HoldMembers Q (addMembers s side t members) :=
  forall_addMembers h (fun _ hp m hm _ => Pair.forall_set hp (ht m hm))
    fun m hm => Pair.forall_single (ht m hm)

theorem holds_single {d : Definition} (hd : d.type.Holds P Q) : (single s side d).Holds P Q :=
  ⟨Pair.forall_single hd.type, holdMembers_empty.addMembers hd.members⟩

theorem Holds.set {n : TypeNode} (h : n.Holds P Q) {d : Definition} (hd : d.type.Holds P Q) :
    (set s side d n).Holds P Q :=
  ⟨Pair.forall_set h.types hd.type, h.members.addMembers hd.members⟩

/-! ## Judging what was changed -/

/-- Changes the types and the members of a node. -/
def map (F : Definition → Definition) (G : Member → Member) (n : TypeNode) : TypeNode :=
  ⟨n.types.map F, n.members.map (·.map G)⟩

/-- What rules do not see does not change what they say. -/
theorem judge_map {F : Definition → Definition} {G : Member → Member} {rules : List Rule}
    {c : Comparer} (hF : ∀ d e, P d.type → P e.type → ∀ r : Rule,
      r.onTypes c (F d).type (F e).type = r.onTypes c d.type e.type)
    (hG : ∀ m m', Q m → Q m' → ∀ r : Rule, r.onMembers c (G m) (G m') = r.onMembers c m m')
    {n : TypeNode} (h : n.Holds P Q) : (n.map F G).judge rules c = n.judge rules c := by
  have htypes (r : Rule) : r.onTypeNode c (n.map F G) = r.onTypeNode c n := by
    obtain ⟨types, members⟩ := n
    cases types with
    | both d e =>
      have hd := h.types d List.mem_cons_self
      have he := h.types e (List.mem_cons_of_mem d (List.mem_singleton_self e))
      exact hF d e hd he r
    | _ => rfl
  have hmembers : ∀ p ∈ n.members.entries,
      (rules.map fun r => r.onMemberNode c (p.map G)) = rules.map fun r => r.onMemberNode c p := by
    intro p hp
    refine List.map_congr_left fun r _ => ?_
    cases p with
    | both m m' =>
      have hm := h.members _ hp m List.mem_cons_self
      have hm' := h.members _ hp m' (List.mem_cons_of_mem m (List.mem_singleton_self m'))
      exact hG m m' hm hm' r
    | _ => rfl
  have hentries : (n.map F G).members.entries = n.members.entries.map (·.map G) := rfl
  rw [judge, judge, hentries, List.flatMap_map]
  exact congrArg₂ Verdict.append (congrArg Verdict.concat (List.map_congr_left fun r _ => htypes r))
    (congrArg Verdict.concat (List.flatMap_congr hmembers))

/-- A node has no differences if no rule finds one in it. -/
theorem differences_judge_eq_nil {rules : List Rule} {c : Comparer} {n : TypeNode}
    (htypes : ∀ r : Rule, (r.onTypeNode c n).differences = [])
    (hmembers : ∀ p ∈ n.members.entries, ∀ r : Rule, (r.onMemberNode c p).differences = []) :
    (n.judge rules c).differences = [] := by
  refine List.append_eq_nil_iff.2 ⟨?_, ?_⟩ <;> refine List.flatMap_eq_nil_iff.2 fun v hv => ?_
  · obtain ⟨r, -, rfl⟩ := List.mem_map.1 hv
    exact htypes r
  · obtain ⟨p, hp, hv⟩ := List.mem_flatMap.1 hv
    obtain ⟨r, -, rfl⟩ := List.mem_map.1 hv
    exact hmembers p hp r

end TypeNode

namespace SurfaceTree

variable {P : TypeDefinition → Prop} {Q : Member → Prop} {s : Selection}
  {nodes : BucketIndex TypeNode}

/-- What holds of all nodes holds of them still when definitions are put into nodes. -/
theorem forall_foldl_register {P : TypeNode → Prop} {side : Side} {ds : List Definition}
    (h : ∀ n ∈ nodes.entries, P n)
    (hset : ∀ n, P n → ∀ d ∈ ds,
      s.comparer.sameType n.types.representative.type.descriptor d.type.descriptor →
        P (n.set s side d))
    (hsingle : ∀ d ∈ ds, P (.single s side d)) :
    ∀ n ∈ (ds.foldl (register s side) nodes).entries, P n := by
  induction ds generalizing nodes with
  | nil => exact h
  | cons d ds ih =>
    refine ih (BucketIndex.forall_upsert h (fun n hn => hset n hn d List.mem_cons_self) ?_)
      (fun n hn e he => hset n hn e (List.mem_cons_of_mem d he))
      fun e he => hsingle e (List.mem_cons_of_mem d he)
    exact hsingle d List.mem_cons_self

theorem holds_foldl_register (h : ∀ n ∈ nodes.entries, n.Holds P Q) (side : Side)
    {ds : List Definition} (hds : ∀ d ∈ ds, d.type.Holds P Q) :
    ∀ n ∈ (ds.foldl (register s side) nodes).entries, n.Holds P Q :=
  forall_foldl_register h (fun _ hn d hd _ => hn.set (hds d hd)) fun d hd =>
    TypeNode.holds_single (hds d hd)

end SurfaceTree

end ApiEvolution
