import ApiEvolution.Surface.Assembly

/-!
# Types of one shape

Types are looked up by name among the types of a list, and by position, from each type to one that
is nested in it. A map of types that leaves their names and goes down to nested types
(`TypeDefinition.Shaping`) commutes with all of these: what is found after it is the image of what
is found before, at the same position.
-/

namespace ApiEvolution

namespace TypeDefinition

/-- The map leaves names and is applied to nested types in their places. -/
structure Shaping (g : TypeDefinition → TypeDefinition) : Prop where
  isNamed : ∀ space name t, (g t).isNamed space name = t.isNamed space name
  nestedTypes : ∀ t, (g t).nestedTypes = t.nestedTypes.map g

variable {g : TypeDefinition → TypeDefinition}

theorem Shaping.first? (h : Shaping g) (space name : String) (ts : List TypeDefinition) :
    first? space name (ts.map g) =
      (first? space name ts).map fun x => (x.1, g x.2) := by
  have hname : ((fun t : TypeDefinition × Nat => t.1.isNamed space name) ∘ Prod.map g id) =
      fun t => t.1.isNamed space name :=
    funext fun t => h.isNamed space name t.1
  rw [TypeDefinition.first?, List.zipIdx_map, List.find?_map, hname, Option.map_map,
    TypeDefinition.first?, Option.map_map]
  rfl

theorem Shaping.descend (h : Shaping g) (t : TypeDefinition) (p : List Nat) :
    (g t).descend p = (t.descend p).map g := by
  induction p generalizing t with
  | nil => rfl
  | cons i p ih =>
    rw [TypeDefinition.descend, TypeDefinition.descend, h.nestedTypes, List.getElem?_map]
    cases t.nestedTypes[i]? with
    | none => rfl
    | some u => exact ih u

end TypeDefinition

/-- What the map makes of a type that was found. -/
def Found.map (g : TypeDefinition → TypeDefinition) (f : Found) : Found :=
  ⟨f.position, g f.type⟩

namespace TypeDefinition.Shaping

variable {g : TypeDefinition → TypeDefinition} {a b : Assembly}

theorem nested? (h : Shaping g) (f : Found) (space name : String) :
    (f.map g).nested? space name = (f.nested? space name).map (Found.map g) := by
  rw [Found.nested?, Found.nested?, Found.map, h.nestedTypes, h.first?, Option.map_map,
    Option.map_map]
  rfl

theorem find? (h : Shaping g) (hb : b.topLevel = a.topLevel.map g) (space name : String) :
    b.find? space name = (a.find? space name).map (Found.map g) := by
  rw [Assembly.find?, Assembly.find?, hb, h.first?, Option.map_map, Option.map_map]
  rfl

theorem definitionAt? (h : Shaping g) (hb : b.topLevel = a.topLevel.map g) (p : List Nat) :
    b.definitionAt? p = (a.definitionAt? p).map g := by
  cases p with
  | nil => rfl
  | cons i p =>
    rw [Assembly.definitionAt?, Assembly.definitionAt?, hb, List.getElem?_map]
    cases a.topLevel[i]? with
    | none => rfl
    | some t => exact h.descend t p

end TypeDefinition.Shaping

/-! ## Listing all types -/

namespace TypeDefinition

variable {ts : List TypeDefinition}

/-- The stack keeps the order of the recursion. -/
theorem walk_eq (ts : List TypeDefinition) : walk ts = preorderOf ts := by
  induction ts using walk.induct with
  | case1 => rw [walk, preorderOf]
  | case2 t ts ih => rw [walk, ih, preorderOf_append, preorderOf, preorder_eq, List.cons_append]

theorem subset_walk (ts : List TypeDefinition) : ts ⊆ walk ts := by
  induction ts using walk.induct with
  | case1 => exact List.nil_subset _
  | case2 t ts ih =>
    rw [walk]
    exact List.cons_subset_cons t (List.Subset.trans (List.subset_append_right _ _) ih)

/-- What is nested in a listed type is listed. -/
theorem nestedTypes_subset_walk {t : TypeDefinition} (ht : t ∈ walk ts) :
    t.nestedTypes ⊆ walk ts := by
  induction ts using walk.induct with
  | case1 =>
    rw [walk] at ht
    cases ht
  | case2 u ts ih =>
    rw [walk] at ht ⊢
    refine List.subset_cons_of_subset u ?_
    rcases List.mem_cons.1 ht with rfl | ht
    · exact List.Subset.trans (List.subset_append_left _ _) (subset_walk _)
    · exact ih ht

/-- What holds of some types and of what is nested in a type of which it holds, holds of all types
that are listed. -/
theorem forall_walk {P : TypeDefinition → Prop}
    (hnested : ∀ t, P t → ∀ u ∈ t.nestedTypes, P u) (ts : List TypeDefinition)
    (hts : ∀ t ∈ ts, P t) : ∀ t ∈ walk ts, P t := by
  induction ts using walk.induct with
  | case1 =>
    rw [walk]
    exact hts
  | case2 t ts ih =>
    obtain ⟨ht, hts⟩ := List.forall_mem_cons.1 hts
    rw [walk]
    refine List.forall_mem_cons.2 ⟨ht, ih fun u hu => ?_⟩
    exact (List.mem_append.1 hu).elim (hnested t ht u) (hts u)

theorem Shaping.walk {g : TypeDefinition → TypeDefinition} (h : Shaping g)
    (ts : List TypeDefinition) : walk (ts.map g) = (walk ts).map g := by
  induction ts using walk.induct with
  | case1 => rw [List.map_nil, TypeDefinition.walk, List.map_nil]
  | case2 t ts ih =>
    rw [List.map_cons, TypeDefinition.walk, TypeDefinition.walk, h.nestedTypes, ← List.map_append,
      ih, List.map_cons]

end TypeDefinition

end ApiEvolution
