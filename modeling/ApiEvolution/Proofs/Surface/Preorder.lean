import ApiEvolution.Proofs.Surface.Shape

/-!
# All types, in which order

`Assembly.allTypes` goes through the types of an assembly with a stack. The main statement,
`Assembly.allTypes_exact`, says that this is the recursive traversal. `Walk` is the loop in single
turns, with a stack that grows at its end: each turn lists the next type of the recursive traversal
(`Walk.turn_cases`), so after as many turns as there are types the stack is empty, and not before
(`Walk.after_exact`). The recursive traversal goes through the positions of an assembly, through
each of them once, and in the order in which they precede each other
(`TypeDefinition.pairwise_positions`).
-/

namespace ApiEvolution

/-! ## The loop in single turns -/

/-- The types on the stack, whose end is its top, and those that have been taken from it. -/
structure Walk where
  stack : Array TypeDefinition
  listed : Array TypeDefinition

namespace Walk

/-- The first of the types is on top. -/
def start (types : List TypeDefinition) : Walk :=
  ⟨types.reverse.toArray, #[]⟩

/-- Takes a type from the stack, lists it, and pushes the types nested in it, the last one first. -/
def turn (w : Walk) : Option Walk :=
  w.stack.back?.map fun t =>
    ⟨t.nestedTypes.foldr (fun u stack => stack.push u) w.stack.pop, w.listed.push t⟩

/-- `n` turns, or as many as there are. -/
def after (w : Walk) : Nat → Walk
  | 0 => w
  | n + 1 =>
    match w.turn with
    | some w' => w'.after n
    | none => w

/-- What the recursive traversal makes of the stack, from its top. -/
def ahead (w : Walk) : List TypeDefinition :=
  TypeDefinition.preorderOf w.stack.toList.reverse

theorem ahead_start (types : List TypeDefinition) :
    (start types).ahead = TypeDefinition.preorderOf types := by
  simp [ahead, start]

/-- A turn lists the first of the types that are ahead; there is none if no types are. -/
theorem turn_cases (w : Walk) : (w.turn = none ∧ w.ahead = []) ∨
    ∃ t w', w.turn = some w' ∧ w.ahead = t :: w'.ahead ∧ w'.listed = w.listed.push t := by
  obtain ⟨stack, listed⟩ := w
  by_cases hsize : stack.size = 0
  · obtain rfl := Array.eq_empty_of_size_eq_zero hsize
    exact .inl ⟨rfl, rfl⟩
  · obtain ⟨below, t, rfl⟩ := Array.eq_push_of_size_ne_zero hsize
    refine .inr ⟨t, ⟨below ++ t.nestedTypes.reverse.toArray, listed.push t⟩, ?_, ?_, rfl⟩
    · simp [turn]
    -- what was pushed in reverse order is read from the end
    · simp [ahead, TypeDefinition.preorderOf, TypeDefinition.preorder_eq,
        TypeDefinition.preorderOf_append]

theorem turn_eq_none_iff (w : Walk) : w.turn = none ↔ w.ahead = [] := by
  rcases w.turn_cases with ⟨hturn, hahead⟩ | ⟨t, w', hturn, hahead, -⟩
  · simp [hturn, hahead]
  · simp [hturn, hahead]

/-- After `n` turns, the first `n` of the types ahead have been listed, and the others are ahead. -/
theorem after_exact (w : Walk) (n : Nat) :
    (w.after n).listed.toList = w.listed.toList ++ w.ahead.take n ∧
      (w.after n).ahead = w.ahead.drop n := by
  induction n generalizing w with
  | zero => simp [after]
  | succ n ih =>
    rw [after]
    rcases w.turn_cases with ⟨hturn, hahead⟩ | ⟨t, w', hturn, hahead, hlisted⟩
    · simp [hturn, hahead]
    · obtain ⟨htaken, hleft⟩ := ih w'
      simp [hturn, hahead, htaken, hleft, hlisted]

end Walk

/-! ## Positions -/

/-- The position `p` comes before `q`: `q` is below `p`, or they are at or below siblings of which
that of `p` is the earlier one. -/
inductive Precedes : List Nat → List Nat → Prop
  | above (p : List Nat) {q : List Nat} : q ≠ [] → Precedes p (p ++ q)
  | sibling (p q r : List Nat) {i j : Nat} : i < j → Precedes (p ++ i :: q) (p ++ j :: r)

namespace Precedes

variable {p q : List Nat}

theorem cons (h : Precedes p q) (i : Nat) : Precedes (i :: p) (i :: q) := by
  cases h with
  | above _ hq => exact .above (i :: p) hq
  | sibling p q r hij => exact .sibling (i :: p) q r hij

theorem ne (h : Precedes p q) : p ≠ q := by
  cases h with
  | above _ hq => simpa using hq
  | sibling p q r hij =>
    intro heq
    have hcons := List.append_cancel_left heq
    have hi := (List.cons.inj hcons).1
    omega

end Precedes

namespace TypeDefinition

mutual

/-- The positions in the tree, each before the ones below it. -/
def positions : TypeDefinition → List (List Nat)
  | ⟨_, _, _, _, nested⟩ => [] :: positionsFrom 0 nested

/-- The positions in a list of trees of which the first one has the number `i`. -/
def positionsFrom (i : Nat) : List TypeDefinition → List (List Nat)
  | [] => []
  | t :: rest => t.positions.map (i :: ·) ++ positionsFrom (i + 1) rest

end

theorem mem_positionsFrom {i : Nat} {ts : List TypeDefinition} {p : List Nat} :
    p ∈ positionsFrom i ts ↔
      ∃ j q t, p = (i + j) :: q ∧ ts[j]? = some t ∧ q ∈ t.positions := by
  induction ts generalizing i with
  | nil => simp [positionsFrom]
  | cons t ts ih =>
    rw [positionsFrom, List.mem_append, List.mem_map, ih]
    constructor
    · rintro (⟨q, hq, rfl⟩ | ⟨j, q, u, rfl, hu, hq⟩)
      · exact ⟨0, q, t, rfl, rfl, hq⟩
      · exact ⟨j + 1, q, u, by rw [Nat.add_assoc, Nat.add_comm 1], hu, hq⟩
    · rintro ⟨j, q, u, rfl, hu, hq⟩
      cases j with
      | zero =>
        cases hu
        exact .inl ⟨q, hq, rfl⟩
      | succ j => exact .inr ⟨j, q, u, by rw [Nat.add_assoc, Nat.add_comm 1], hu, hq⟩

theorem positions_eq (t : TypeDefinition) :
    t.positions = [] :: positionsFrom 0 t.nestedTypes := by
  cases t
  rfl

theorem descend_cons (t : TypeDefinition) (i : Nat) (p : List Nat) :
    t.descend (i :: p) = t.nestedTypes[i]?.bind (·.descend p) := by
  rw [descend]
  cases t.nestedTypes[i]? <;> rfl

/-- What has these trees, a type or an assembly, has a position below the `i`-th one if that one has
it. -/
theorem cons_mem_positionsFrom {q : List Nat}
    (hq : ∀ t : TypeDefinition, q ∈ t.positions ↔ (t.descend q).isSome) (i : Nat)
    (ts : List TypeDefinition) :
    i :: q ∈ positionsFrom 0 ts ↔ (ts[i]?.bind (·.descend q)).isSome := by
  rw [mem_positionsFrom]
  constructor
  · rintro ⟨j, r, t, heq, ht, hr⟩
    rw [Nat.zero_add] at heq
    obtain ⟨rfl, rfl⟩ := List.cons.inj heq
    rw [ht, Option.bind_some]
    exact (hq t).1 hr
  · intro hsome
    obtain ⟨t, ht⟩ := Option.isSome_iff_exists.1 (Option.isSome_of_isSome_bind hsome)
    rw [ht, Option.bind_some] at hsome
    exact ⟨i, q, t, by rw [Nat.zero_add], ht, (hq t).2 hsome⟩

/-- There is a type at the positions of the tree, and at no others. -/
theorem mem_positions (p : List Nat) (t : TypeDefinition) :
    p ∈ t.positions ↔ (t.descend p).isSome := by
  induction p generalizing t with
  | nil => simp [positions_eq, descend]
  | cons i p ih =>
    have hcons := cons_mem_positionsFrom ih i t.nestedTypes
    rw [positions_eq, List.mem_cons, descend_cons, ← hcons]
    simp

mutual

/-- The positions are listed in their order. -/
theorem pairwise_positions : (t : TypeDefinition) → t.positions.Pairwise Precedes
  | ⟨_, _, _, _, nested⟩ => by
    rw [positions]
    refine List.pairwise_cons.2 ⟨fun q hq => ?_, pairwise_positionsFrom 0 nested⟩
    obtain ⟨j, r, -, rfl, -⟩ := mem_positionsFrom.1 hq
    exact .above [] (List.cons_ne_nil _ _)

theorem pairwise_positionsFrom (i : Nat) : (ts : List TypeDefinition) →
    (positionsFrom i ts).Pairwise Precedes
  | [] => .nil
  | t :: ts => by
    rw [positionsFrom, List.pairwise_append, List.pairwise_map]
    refine ⟨(pairwise_positions t).imp fun h => h.cons i, pairwise_positionsFrom (i + 1) ts, ?_⟩
    intro p hp q hq
    obtain ⟨p, -, rfl⟩ := List.mem_map.1 hp
    obtain ⟨j, q, -, rfl, -⟩ := mem_positionsFrom.1 hq
    exact .sibling [] p q (by omega)

end

mutual

/-- The types at the positions are those of the recursive traversal. -/
theorem map_positions : (t : TypeDefinition) → t.positions.map t.descend = t.preorder.map some
  | ⟨d, flags, ps, ms, nested⟩ => by
    have hnested := map_positionsFrom 0 nested (f := descend ⟨d, flags, ps, ms, nested⟩)
      fun j q t ht => by rw [Nat.zero_add, descend_cons, ht, Option.bind_some]
    rw [positions, preorder, List.map_cons, List.map_cons, hnested, descend]

/-- Here `f` is the descent from what has these trees, a type or an assembly. -/
theorem map_positionsFrom (i : Nat) : (ts : List TypeDefinition) →
    {f : List Nat → Option TypeDefinition} →
    (∀ j q t, ts[j]? = some t → f ((i + j) :: q) = t.descend q) →
    (positionsFrom i ts).map f = (preorderOf ts).map some
  | [], _, _ => rfl
  | t :: ts, f, hf => by
    have hhead : (t.positions.map (i :: ·)).map f = t.preorder.map some := by
      rw [List.map_map, ← map_positions t]
      exact List.map_congr_left fun q _ => hf 0 q t rfl
    have hrest := map_positionsFrom (i + 1) ts (f := f) fun j q u hu => by
      rw [Nat.add_assoc, Nat.add_comm 1]
      exact hf (j + 1) q u hu
    rw [positionsFrom, preorderOf, List.map_append, List.map_append, hhead, hrest]

end

end TypeDefinition

namespace Assembly

/-- The positions of the definitions of an assembly. -/
def positions (a : Assembly) : List (List Nat) :=
  TypeDefinition.positionsFrom 0 a.topLevel

theorem mem_positions (a : Assembly) (p : List Nat) :
    p ∈ a.positions ↔ (a.definitionAt? p).isSome := by
  cases p with
  | nil => simp [positions, TypeDefinition.mem_positionsFrom, definitionAt?]
  | cons i q =>
    exact TypeDefinition.cons_mem_positionsFrom (TypeDefinition.mem_positions q) i a.topLevel

theorem map_positions (a : Assembly) :
    a.positions.map a.definitionAt? = (TypeDefinition.preorderOf a.topLevel).map some := by
  refine TypeDefinition.map_positionsFrom 0 a.topLevel fun j q t ht => ?_
  rw [Nat.zero_add, definitionAt?, ht, Option.bind_some]

/-- All types are listed module by module, each before what is nested in it, recursively. The loop
ends after as many turns as there are types, and not before, and each turn lists the next one. So
the list goes through the positions of the assembly: it has the definition at each of them exactly
once, behind that of its declaring type and behind those at and below earlier siblings. -/
theorem allTypes_exact (a : Assembly) :
    a.allTypes = a.modules.flatMap (fun m => TypeDefinition.preorderOf m.types) ∧
      (∀ n, ((Walk.start a.topLevel).after n).listed.toList = a.allTypes.take n ∧
        (((Walk.start a.topLevel).after n).turn = none ↔ a.allTypes.length ≤ n)) ∧
      ∃ positions : List (List Nat), a.allTypes.map some = positions.map a.definitionAt? ∧
        (∀ p, p ∈ positions ↔ (a.definitionAt? p).isSome) ∧ positions.Nodup ∧
        positions.Pairwise Precedes := by
  have hwalk : a.allTypes = TypeDefinition.preorderOf a.topLevel := TypeDefinition.walk_eq _
  have hordered : a.positions.Pairwise Precedes := TypeDefinition.pairwise_positionsFrom 0 _
  refine ⟨?_, fun n => ?_, a.positions, ?_, a.mem_positions, hordered.imp Precedes.ne, hordered⟩
  · rw [hwalk, topLevel]
    induction a.modules with
    | nil => rfl
    | cons m ms ih =>
      rw [List.flatMap_cons, TypeDefinition.preorderOf_append, ih, List.flatMap_cons]
  · obtain ⟨hlisted, hahead⟩ := (Walk.start a.topLevel).after_exact n
    rw [Walk.ahead_start, ← hwalk] at hlisted hahead
    rw [Walk.turn_eq_none_iff, hahead, List.drop_eq_nil_iff]
    exact ⟨hlisted, Iff.rfl⟩
  · rw [hwalk, a.map_positions]

end Assembly

end ApiEvolution
