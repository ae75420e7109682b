import Mathlib.Data.List.Induction
import ApiEvolution.Pairing.Tree
import ApiEvolution.Proofs.Identity.Definitions
import ApiEvolution.Proofs.Pairing.BucketIndex
import ApiEvolution.Proofs.Surface.Rebinding
import ApiEvolution.Surface.Declaration

/-!
# Type nodes are an outer join

What an assembly brings into a tree is its `Selection.surface`: module by module the included types,
each before its included nested types, then what the exported types lead to. A tree joins the
surfaces of two builds by path: one node for each path that occurs, in order of first occurrence,
and on each side the last definition of that side with the path of the node.

The invariant of the two passes is `Joined`. One definition is put into the tree by
`Joined.register`; the main statement is `SurfaceTree.types_ofBuilds`.
-/

namespace ApiEvolution

/-! ## Surfaces -/

namespace Selection

variable (s : Selection)

mutual

/-- The type, and behind it the included types nested in it. -/
def visit : TypeDefinition → List TypeDefinition
  | ⟨d, f, g, m, nested⟩ => ⟨d, f, g, m, nested⟩ :: visitAll nested

/-- The included types of a list, each before the types nested in it. -/
def visitAll : List TypeDefinition → List TypeDefinition
  | [] => []
  | t :: rest => (if s.includesType t then visit t else []) ++ visitAll rest

end

/-- The types of a module that are compared, then what its exported types are bound to and is still
there. -/
def moduleSurface (definitions : DefinitionId → Option TypeDefinition) (m : Module) :
    List TypeDefinition :=
  s.visitAll m.types ++ s.visitAll (m.exported.filterMap fun t => t.target?.bind definitions)

/-- The types of an assembly that are compared, module by module. -/
def surface (definitions : DefinitionId → Option TypeDefinition) (a : Assembly) :
    List TypeDefinition :=
  a.modules.flatMap (s.moduleSurface definitions)

theorem visitAll_eq (ts : List TypeDefinition) :
    s.visitAll ts = (ts.filter s.includesType).flatMap s.visit := by
  induction ts with
  | nil => rfl
  | cons t ts ih =>
    rw [visitAll, ih, List.filter_cons]
    split <;> simp

mutual

theorem expand_types (id : DefinitionId) : (t : TypeDefinition) →
    (s.expand id t).map (·.type) = s.visit t
  | ⟨d, f, g, m, nested⟩ => by
    rw [expand, visit, List.map_cons, expandFrom_types id 0 nested]

theorem expandFrom_types (id : DefinitionId) : (position : Nat) → (ts : List TypeDefinition) →
    (s.expandFrom id position ts).map (·.type) = s.visitAll ts
  | _, [] => rfl
  | position, t :: rest => by
    rw [expandFrom, visitAll, List.map_append, expandFrom_types id (position + 1) rest]
    split
    · rw [expand_types _ t]
    · rfl

end

theorem admitted_types (ds : List Definition) :
    (ds.flatMap s.admitted).map (·.type) = s.visitAll (ds.map (·.type)) := by
  induction ds with
  | nil => rfl
  | cons d ds ih =>
    rw [List.flatMap_cons, List.map_append, ih, List.map_cons, visitAll, admitted]
    split
    · rw [expand_types]
    · rfl

theorem forwarded?_types (definitions : DefinitionId → Option TypeDefinition)
    (exported : List TypeRef) :
    (exported.filterMap (forwarded? definitions)).map (·.type) =
      exported.filterMap fun t => t.target?.bind definitions := by
  rw [List.map_filterMap]
  congr 1
  funext t
  simp only [forwarded?, Option.map_bind, Function.comp_def, Option.map_map, Option.map_id']

theorem registeredFrom_types (definitions : DefinitionId → Option TypeDefinition) (id : AssemblyId)
    (position : Nat) (ms : List Module) : (s.registeredFrom definitions id position ms).map (·.type) =
      ms.flatMap (s.moduleSurface definitions) := by
  induction ms generalizing position with
  | nil => rfl
  | cons m ms ih =>
    have htypes : (m.types.zipIdx position).flatMap (fun t => s.admitted ⟨⟨id, [t.2]⟩, t.1⟩) =
        ((m.types.zipIdx position).map fun t => ⟨⟨id, [t.2]⟩, t.1⟩).flatMap s.admitted := by
      rw [List.flatMap_map]
    rw [registeredFrom, List.map_append, List.map_append, ih, htypes, admitted_types, admitted_types,
      forwarded?_types, List.map_map, List.flatMap_cons, moduleSurface]
    congr 3
    exact List.zipIdx_map_fst position m.types

/-- What an assembly brings into a tree are the types of its surface, in their order. -/
theorem registered_types (definitions : DefinitionId → Option TypeDefinition) (l : Loaded) :
    (s.registered definitions l).map (·.type) = s.surface definitions l.assembly :=
  s.registeredFrom_types definitions l.id 0 l.assembly.modules

mutual

/-- What passes from a type to the types nested in it passes to all types that are visited. -/
theorem forall_visit {s : Selection} {P : TypeDefinition → Prop}
    (hP : ∀ t, P t → ∀ u ∈ t.nestedTypes, P u) : (t : TypeDefinition) → P t → ∀ u ∈ s.visit t, P u
  | ⟨d, flags, ps, ms, nested⟩, ht, u, hu => by
    rw [visit] at hu
    rcases List.mem_cons.1 hu with rfl | hu
    · exact ht
    · exact forall_visitAll hP nested (hP _ ht) u hu

theorem forall_visitAll {s : Selection} {P : TypeDefinition → Prop}
    (hP : ∀ t, P t → ∀ u ∈ t.nestedTypes, P u) : (ts : List TypeDefinition) → (∀ t ∈ ts, P t) →
    ∀ u ∈ s.visitAll ts, P u
  | [], _, u, hu => absurd hu List.not_mem_nil
  | t :: ts, hts, u, hu => by
    rw [visitAll] at hu
    rcases List.mem_append.1 hu with hu | hu
    · split at hu
      · exact forall_visit hP t (hts t List.mem_cons_self) u hu
      · exact absurd hu List.not_mem_nil
    · exact forall_visitAll hP ts (fun v hv => hts v (List.mem_cons_of_mem t hv)) u hu

end

/-- What is visited refers to nothing else. -/
theorem refs_of_mem_visitAll {s : Selection} (ts : List TypeDefinition) :
    ∀ u ∈ s.visitAll ts, ∀ r ∈ u.refs, r ∈ TypeDefinition.refsOf ts := by
  refine forall_visitAll (P := fun u => ∀ r ∈ u.refs, r ∈ TypeDefinition.refsOf ts)
    (fun t ht u hu r hr => ht r ?_) ts fun t ht r hr => ?_
  · obtain ⟨d, flags, ps, ms, nested⟩ := t
    rw [TypeDefinition.refs, TypeDefinition.refsOf_eq]
    exact List.mem_append_right _ (List.mem_flatMap.2 ⟨u, hu, hr⟩)
  · rw [TypeDefinition.refsOf_eq]
    exact List.mem_flatMap.2 ⟨t, ht, hr⟩

end Selection

/-! ## Paths -/

def Definition.path (d : Definition) : List (String × String) :=
  d.type.descriptor.path

/-- The path of the types of a node. -/
def TypeNode.path (n : TypeNode) : List (String × String) :=
  n.types.representative.path

/-- The definition that was put on the side last, of those with the path. -/
def latest (side : Side) (path : List (String × String)) (regs : List (Side × Definition)) :
    Option Definition :=
  ((regs.filter fun r => r.1 == side && r.2.path == path).getLast?).map (·.2)

theorem mem_of_latest {side : Side} {path : List (String × String)} {regs : List (Side × Definition)}
    {d : Definition} (h : latest side path regs = some d) : (side, d) ∈ regs ∧ d.path = path := by
  obtain ⟨r, hr, rfl⟩ := Option.map_eq_some_iff.1 h
  obtain ⟨hmem, hp⟩ := List.mem_filter.1 (List.mem_of_getLast? hr)
  simp only [Bool.and_eq_true, beq_iff_eq] at hp
  obtain ⟨rfl, rfl⟩ := hp
  exact ⟨hmem, rfl⟩

theorem eraseDups_concat {α : Type} [BEq α] [LawfulBEq α] (xs : List α) (x : α) :
    (xs ++ [x]).eraseDups = if x ∈ xs then xs.eraseDups else xs.eraseDups ++ [x] := by
  rw [List.eraseDups_append, List.cons_removeAll]
  split <;> next h => simp_all [List.eraseDups_cons]

theorem nodup_eraseDups {α : Type} [BEq α] [LawfulBEq α] (xs : List α) : xs.eraseDups.Nodup := by
  match xs with
  | [] => exact List.nodup_nil
  | x :: xs =>
    have hlt := List.length_filter_le (fun y => !y == x) xs
    rw [List.eraseDups_cons, List.nodup_cons]
    exact ⟨by simp, nodup_eraseDups _⟩
termination_by xs.length
decreasing_by simp only [List.length_cons]; omega

/-! ## The invariant -/

/-- The hash of the definition that stands for a node. -/
def Selection.hashOf (s : Selection) (n : TypeNode) : UInt64 :=
  s.hash n.types.representative.type.descriptor.fingerprint

/-- The node that definitions of one path have been put into, one after the other. -/
def TypeNode.gather (s : Selection) (regs : List (Side × Definition)) : Option TypeNode :=
  regs.foldl (fun n r => some (n.elim (.single s r.1 r.2) (.set s r.1 r.2))) none

/-- The nodes join what was put into them: one node for each path, in order of first occurrence, and
in each of them what was put there. -/
structure Joined (s : Selection) (regs : List (Side × Definition)) (nodes : BucketIndex TypeNode) :
    Prop where
  indexed : nodes.Indexed s.hashOf
  paths : nodes.entries.map TypeNode.path = (regs.map (·.2.path)).eraseDups
  gathered : ∀ n ∈ nodes.entries, TypeNode.gather s (regs.filter (·.2.path == n.path)) = some n

theorem Side.eq_opposite_of_ne {side side' : Side} (h : side ≠ side') : side' = side.opposite := by
  cases side <;> cases side' <;> first | rfl | exact absurd rfl h

namespace TypeNode

theorem path_single (s : Selection) (side : Side) (d : Definition) :
    (TypeNode.single s side d).path = d.path := by
  cases side <;> rfl

/-- Another definition of the same path leaves the path of the node. -/
theorem path_set {s : Selection} {side : Side} {d : Definition} {n : TypeNode}
    (h : n.path = d.path) : (TypeNode.set s side d n).path = n.path := by
  obtain ⟨types, members⟩ := n
  cases types <;> cases side <;> first | rfl | exact h.symm

/-- Nodes of one path have one hash. -/
theorem hashOf_eq {s : Selection} {n n' : TypeNode} (h : n.path = n'.path) :
    s.hashOf n = s.hashOf n' := by
  rw [Selection.hashOf, TypeRef.fingerprint_eq_of_path h, Selection.hashOf]

theorem gather_concat (s : Selection) (regs : List (Side × Definition)) (r : Side × Definition) :
    gather s (regs ++ [r]) = some ((gather s regs).elim (.single s r.1 r.2) (.set s r.1 r.2)) := by
  rw [gather, List.foldl_append]
  rfl

theorem eq_nil_of_gather {s : Selection} {regs : List (Side × Definition)}
    (h : gather s regs = none) : regs = [] := by
  induction regs using List.reverseRecOn with
  | nil => rfl
  | append_singleton regs r _ =>
    rw [gather_concat] at h
    cases h

/-- On each side of a node is what was put there last. -/
theorem get?_of_gather {s : Selection} {regs : List (Side × Definition)} {n : TypeNode}
    (h : gather s regs = some n) (side : Side) :
    n.types.get? side = ((regs.filter (·.1 == side)).getLast?).map (·.2) := by
  induction regs using List.reverseRecOn generalizing n with
  | nil => cases h
  | append_singleton regs r ih =>
    obtain ⟨side', d⟩ := r
    rw [gather_concat, Option.some.injEq] at h
    rw [List.filter_append, List.filter_cons, List.filter_nil]
    subst h
    by_cases hside : side' = side
    · subst hside
      rw [if_pos (beq_self_eq_true side'), List.getLast?_concat]
      cases gather s regs with
      | none => exact Pair.get_single d side'
      | some m => exact Pair.get_set m.types d side'
    · obtain rfl := Side.eq_opposite_of_ne hside
      rw [if_neg (by simpa using hside), List.append_nil]
      cases hregs : gather s regs with
      | none =>
        rw [eq_nil_of_gather hregs]
        exact Pair.get_single_opposite d side'
      | some m =>
        rw [← ih hregs]
        exact Pair.get_set_opposite m.types d side'

end TypeNode

namespace Joined

variable {s : Selection} {regs : List (Side × Definition)} {nodes : BucketIndex TypeNode}

theorem nil (s : Selection) : Joined s [] .empty :=
  ⟨BucketIndex.indexed_empty, rfl, nofun⟩

theorem nodup_paths (h : Joined s regs nodes) : (nodes.entries.map TypeNode.path).Nodup := by
  rw [h.paths]
  exact nodup_eraseDups _

/-- On each side of a node is what was put there last, of those with the path of the node. -/
theorem sides (h : Joined s regs nodes) {n : TypeNode} (hn : n ∈ nodes.entries) (side : Side) :
    n.types.get? side = latest side n.path regs := by
  rw [TypeNode.get?_of_gather (h.gathered n hn), List.filter_filter, latest]

/-- What was put somewhere has a node. -/
theorem exists_node (h : Joined s regs nodes) {r : Side × Definition} (hr : r ∈ regs) :
    ∃ n ∈ nodes.entries, n.path = r.2.path := by
  rw [← List.mem_map, h.paths, List.mem_eraseDups]
  exact List.mem_map_of_mem hr

/-- The definition that stands for a node was put there. -/
theorem representative_mem (h : Joined s regs nodes) {n : TypeNode} (hn : n ∈ nodes.entries) :
    ∃ side, (side, n.types.representative) ∈ regs := by
  have hrep := n.types.representative_eq
  have hleft := h.sides hn .left
  have hright := h.sides hn .right
  simp only [Pair.get?] at hleft hright
  cases hl : n.types.left? with
  | some d =>
    rw [hl, Option.some_or] at hrep
    cases hrep
    exact ⟨.left, (mem_of_latest (hleft.symm.trans hl)).1⟩
  | none =>
    rw [hl, Option.none_or] at hrep
    exact ⟨.right, (mem_of_latest (hright.symm.trans hrep.symm)).1⟩

/-- A definition of a path that no node has gets a node of its own. -/
theorem push (h : Joined s regs nodes) (side : Side) {d : Definition}
    (hnew : d.path ∉ nodes.entries.map TypeNode.path) : Joined s (regs ++ [(side, d)])
      (nodes.push (s.hash d.type.descriptor.fingerprint) (.single s side d)) := by
  have hnew' : d.path ∉ regs.map (·.2.path) := by
    rw [h.paths, List.mem_eraseDups] at hnew
    exact hnew
  refine ⟨?_, ?_, ?_⟩
  · have hhash : s.hash d.type.descriptor.fingerprint = s.hashOf (.single s side d) := by
      cases side <;> rfl
    rw [hhash]
    exact BucketIndex.indexed_push h.indexed _
  · have hentries : (nodes.push (s.hash d.type.descriptor.fingerprint) (.single s side d)).entries =
        nodes.entries ++ [.single s side d] := rfl
    rw [hentries, List.map_append, List.map_append, h.paths, List.map_singleton, List.map_singleton,
      TypeNode.path_single, eraseDups_concat, if_neg hnew']
  · intro n hn
    rw [List.filter_append, List.filter_cons, List.filter_nil]
    rcases List.mem_append.1 hn with hn | hn
    · have hne : d.path ≠ n.path := fun e => hnew (e ▸ List.mem_map_of_mem hn)
      rw [if_neg (by simpa using hne), List.append_nil]
      exact h.gathered n hn
    · have hnone : regs.filter (·.2.path == d.path) = [] :=
        List.filter_eq_nil_iff.2 fun r hr hp =>
          hnew' (List.mem_map.2 ⟨r, hr, beq_iff_eq.1 hp⟩)
      rw [List.mem_singleton.1 hn, TypeNode.path_single, if_pos (beq_self_eq_true d.path), hnone]
      rfl

/-- A definition of a path that a node has goes into that node. -/
theorem set (h : Joined s regs nodes) (side : Side) {d : Definition} {i : Nat} {n : TypeNode}
    (hi : nodes.entries[i]? = some n) (hpath : n.path = d.path) : Joined s (regs ++ [(side, d)])
      (nodes.modify i (TypeNode.set s side d)) := by
  have hmem := List.mem_of_getElem? hi
  have hset (m : TypeNode) (hm : nodes.entries[i]? = some m) :
      (TypeNode.set s side d m).path = m.path := by
    rw [hi] at hm
    cases hm
    exact TypeNode.path_set hpath
  refine ⟨?_, ?_, ?_⟩
  · exact BucketIndex.indexed_modify h.indexed fun m hm => TypeNode.hashOf_eq (hset m hm)
  · have hsame : (nodes.modify i (TypeNode.set s side d)).entries.map TypeNode.path =
        nodes.entries.map TypeNode.path := BucketIndex.map_modify_eq hset
    have hold : d.path ∈ regs.map (·.2.path) := by
      rw [← List.mem_eraseDups, ← h.paths, ← hpath]
      exact List.mem_map_of_mem hmem
    rw [hsame, h.paths, List.map_append, List.map_singleton, eraseDups_concat, if_pos hold]
  · intro m hm
    rw [List.filter_append, List.filter_cons, List.filter_nil]
    obtain ⟨j, hj⟩ := List.mem_iff_getElem?.1 hm
    rw [BucketIndex.modify, List.getElem?_modify] at hj
    by_cases e : i = j
    · subst e
      simp only [hi, if_true, Option.map_eq_map, Option.map_some, Option.some.injEq] at hj
      subst hj
      rw [TypeNode.path_set hpath, if_pos (by simpa using hpath.symm), TypeNode.gather_concat,
        h.gathered n hmem]
      rfl
    · simp only [e, if_false, Option.map_eq_map, Option.map_id'] at hj
      have hlt := (List.getElem?_eq_some_iff.1 hi).1
      have hne : d.path ≠ m.path := fun hp =>
        e ((List.getElem?_inj (by simpa using hlt) h.nodup_paths).1 (by simp [hi, hj, hpath, hp]))
      rw [if_neg (by simpa using hne), List.append_nil]
      exact h.gathered m (List.mem_of_getElem? hj)

/-- A definition is the same as those of a node if it has their path. -/
theorem sameType_eq (h : Joined s regs nodes) {d : Definition}
    (hregs : ∀ r ∈ regs, r.2.type.descriptor.isDefinitionChain)
    (hd : d.type.descriptor.isDefinitionChain) {n : TypeNode} (hn : n ∈ nodes.entries) :
    s.comparer.sameType n.types.representative.type.descriptor d.type.descriptor =
      (n.path == d.path) := by
  obtain ⟨side, hr⟩ := h.representative_mem hn
  exact Comparer.sameType_eq_of_definitionChain _ (hregs _ hr) hd

/-- The bucket in which the node of a definition is looked for has the first of all its nodes. -/
theorem position?_eq_scan? (h : Joined s regs nodes) {d : Definition}
    (hregs : ∀ r ∈ regs, r.2.type.descriptor.isDefinitionChain)
    (hd : d.type.descriptor.isDefinitionChain) :
    nodes.position? (s.hash d.type.descriptor.fingerprint)
        (fun n => s.comparer.sameType n.types.representative.type.descriptor d.type.descriptor) =
      nodes.scan? fun n =>
        s.comparer.sameType n.types.representative.type.descriptor d.type.descriptor := by
  refine BucketIndex.position?_eq_scan? h.indexed fun n hn hw => ?_
  rw [h.sameType_eq hregs hd hn, beq_iff_eq] at hw
  rw [Selection.hashOf, TypeRef.fingerprint_eq_of_path hw]

/-- One definition is put into the node of its path. -/
theorem register (h : Joined s regs nodes) (side : Side) {d : Definition}
    (hregs : ∀ r ∈ regs, r.2.type.descriptor.isDefinitionChain)
    (hd : d.type.descriptor.isDefinitionChain) :
    Joined s (regs ++ [(side, d)]) (SurfaceTree.register s side nodes d) := by
  rw [SurfaceTree.register, BucketIndex.upsert, h.position?_eq_scan? hregs hd, BucketIndex.scan?]
  split
  · next i hi =>
    obtain ⟨hlt, hi, -⟩ := List.findIdx?_eq_some_iff_getElem.1 hi
    rw [h.sameType_eq hregs hd (List.getElem_mem hlt), beq_iff_eq] at hi
    exact h.set side (List.getElem?_eq_getElem hlt) hi
  · next hnone =>
    refine h.push side fun hmem => ?_
    obtain ⟨n, hn, hpath⟩ := List.mem_map.1 hmem
    have hno := List.findIdx?_eq_none_iff.1 hnone n hn
    rw [h.sameType_eq hregs hd hn, hpath, beq_self_eq_true] at hno
    cases hno

theorem foldl_register (h : Joined s regs nodes) (side : Side) {ds : List Definition}
    (hregs : ∀ r ∈ regs, r.2.type.descriptor.isDefinitionChain)
    (hds : ∀ d ∈ ds, d.type.descriptor.isDefinitionChain) :
    Joined s (regs ++ ds.map (side, ·)) (ds.foldl (SurfaceTree.register s side) nodes) := by
  induction ds generalizing regs nodes with
  | nil => simpa using h
  | cons d ds ih =>
    have hd := hds d List.mem_cons_self
    have hrest := ih (h.register side hregs hd) (fun r hr => by
      rcases List.mem_append.1 hr with hr | hr
      · exact hregs r hr
      · rw [List.mem_singleton.1 hr]
        exact hd) fun e he => hds e (List.mem_cons_of_mem d he)
    simpa using hrest

end Joined

/-! ## The join -/

/-- The assembly with its references bound as far as it has the definitions itself. -/
def Loaded.bound (l : Loaded) : Loaded :=
  (l.bindLocally.run {}).1

/-- Of what was put on one side, nothing is on the other. -/
theorem filter_map_side (side side' : Side) (path : List (String × String)) (ds : List Definition) :
    (ds.map fun d => (side', d)).filter (fun r => r.1 == side && r.2.path == path) =
      if side' = side then (ds.filter fun d => d.path == path).map fun d => (side', d) else [] := by
  rw [List.filter_map]
  split
  · next h => simp [h, Function.comp_def]
  · next h => simp [h, Function.comp_def]

theorem latest_left (path : List (String × String)) (ls rs : List Definition) :
    latest .left path (ls.map (.left, ·) ++ rs.map (.right, ·)) =
      (ls.filter fun d => d.path == path).getLast? := by
  rw [latest, List.filter_append, filter_map_side, filter_map_side, if_pos rfl, if_neg (by decide),
    List.append_nil, List.getLast?_map, Option.map_map]
  exact Option.map_id'

theorem latest_right (path : List (String × String)) (ls rs : List Definition) :
    latest .right path (ls.map (.left, ·) ++ rs.map (.right, ·)) =
      (rs.filter fun d => d.path == path).getLast? := by
  rw [latest, List.filter_append, filter_map_side, filter_map_side, if_neg (by decide), if_pos rfl,
    List.nil_append, List.getLast?_map, Option.map_map]
  exact Option.map_id'

/-- What the new build brings is registered behind what the old one brings. -/
theorem SurfaceTree.nodes_ofBuilds (s : Selection)
    (definitions : DefinitionId → Option TypeDefinition) (left right : Loaded) :
    (ofBuilds s definitions left right).nodes =
      (s.registered definitions right.bound).foldl (register s .right)
        ((s.registered definitions left.bound).foldl (register s .left) .empty) :=
  rfl

/-- The tree of two builds joins what they bring. -/
theorem SurfaceTree.joined_ofBuilds (s : Selection) (definitions : DefinitionId → Option TypeDefinition)
    (left right : Loaded)
    (h : ∀ d ∈ s.registered definitions left.bound ++ s.registered definitions right.bound,
      d.type.descriptor.isDefinitionChain) :
    Joined s ((s.registered definitions left.bound).map (.left, ·) ++
      (s.registered definitions right.bound).map (.right, ·))
      (SurfaceTree.ofBuilds s definitions left right).nodes := by
  have hls : ∀ d ∈ s.registered definitions left.bound, d.type.descriptor.isDefinitionChain :=
    fun d hd => h d (List.mem_append_left _ hd)
  have hleft : Joined s ((s.registered definitions left.bound).map (.left, ·))
      ((s.registered definitions left.bound).foldl (register s .left) .empty) := by
    simpa using (Joined.nil s).foldl_register .left (by nofun) hls
  rw [nodes_ofBuilds]
  refine hleft.foldl_register .right (fun r hr => ?_) fun d hd => h d (List.mem_append_right _ hd)
  obtain ⟨d, hd, rfl⟩ := List.mem_map.1 hr
  exact hls d hd

/-- A tree joins the surfaces of two builds by path. There is one node for each path, in order of
first occurrence, and on each side of it the last definition of that side with its path. -/
theorem SurfaceTree.types_ofBuilds (s : Selection) (definitions : DefinitionId → Option TypeDefinition)
    (left right : Loaded)
    (h : ∀ d ∈ s.registered definitions left.bound ++ s.registered definitions right.bound,
      d.type.descriptor.isDefinitionChain) :
    let ls := s.registered definitions left.bound
    let rs := s.registered definitions right.bound
    let nodes := (SurfaceTree.ofBuilds s definitions left right).types
    ls.map (·.type) = s.surface definitions left.bound.assembly ∧
      rs.map (·.type) = s.surface definitions right.bound.assembly ∧
      nodes.map TypeNode.path = ((ls ++ rs).map Definition.path).eraseDups ∧
      (nodes.map TypeNode.path).Nodup ∧
      ∀ n ∈ nodes, n.types.left? = (ls.filter (·.path == n.path)).getLast? ∧
        n.types.right? = (rs.filter (·.path == n.path)).getLast? ∧
        (n.types.left?.isSome ∨ n.types.right?.isSome) := by
  intro ls rs nodes
  have hboth : Joined s (ls.map (.left, ·) ++ rs.map (.right, ·))
      (SurfaceTree.ofBuilds s definitions left right).nodes :=
    joined_ofBuilds s definitions left right h
  refine ⟨s.registered_types definitions _, s.registered_types definitions _, ?_,
    hboth.nodup_paths, fun n hn => ⟨?_, ?_, ?_⟩⟩
  · have hpaths := hboth.paths
    simp only [List.map_append, List.map_map, Function.comp_def] at hpaths
    rw [List.map_append]
    exact hpaths
  · exact (hboth.sides hn .left).trans (latest_left _ _ _)
  · exact (hboth.sides hn .right).trans (latest_right _ _ _)
  · obtain ⟨side, hside⟩ := n.types.exists_get
    cases side with
    | left => exact .inl hside
    | right => exact .inr hside

/-- A library with public classes of the given names, each with a public class inside. -/
def shelf (number : Nat) (names : List String) : Loaded :=
  let name : AssemblyName := ⟨"Lib", .zero, none⟩
  let nested := (TypeDeclaration.hidden "Page").visibility TypeDefinition.nestedPublicFlag
  let types := names.map fun name => (TypeDeclaration.publicClass "Lib" name).nest nested
  ⟨⟨0, number⟩, AssemblyDeclaration.build ⟨name, [AssemblyDeclaration.mainModule name types []]⟩⟩

theorem SurfaceTree.types_ofBuilds_shelf :
    (SurfaceTree.ofBuilds .visible (fun _ => none) (shelf 0 ["A", "B"])
      (shelf 1 ["B", "C"])).types.map TypeNode.path =
        [[("Lib", "A")], [("", "Page"), ("Lib", "A")], [("Lib", "B")], [("", "Page"), ("Lib", "B")],
          [("Lib", "C")], [("", "Page"), ("Lib", "C")]] := by
  refine (SurfaceTree.types_ofBuilds .visible (fun _ => none) (shelf 0 ["A", "B"])
    (shelf 1 ["B", "C"]) ?_).2.2.1.trans ?_
  · decide
  · decide

end ApiEvolution
