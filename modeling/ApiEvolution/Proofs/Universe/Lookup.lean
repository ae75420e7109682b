import ApiEvolution.Universe.Resolve

/-!
# Looking references up without a universe

A `World` says which assembly each simple name leads to. `World.lookup` is what resolution amounts
to in it: nothing is read, remembered or bound. A nested reference is looked up through its
declaring type, a top-level one in the assembly it names, there among the definitions and then
among the exported types, of which the first is followed.

More forwards find no less (`lookupWithin_le`), and what is found stands where it says
(`located_of_lookupWithin`).
-/

namespace ApiEvolution

/-- A definition in the assembly that a simple name leads to. -/
structure Place where
  key : String
  found : Found

/-- The first nested type with this namespace and name. -/
def Place.nested? (x : Place) (space name : String) : Option Place :=
  (x.found.nested? space name).map (⟨x.key, ·⟩)

/-- The assemblies that there are, by the form in which simple names are remembered. -/
abbrev World := String → Option Assembly

namespace World

variable (w : World)

/-- Looks a top-level type up in an assembly; `follow` looks up the exported type. -/
def inAssembly (follow : TypeRef → Option Place) (space name key : String) (a : Assembly) :
    Option Place :=
  match a.find? space name with
  | some f => some ⟨key, f⟩
  | none =>
    match a.findExported? space name with
    | none => none
    | some forwarder =>
      if forwarder.assembly.agrees a.name true then none else follow forwarder

mutual

/-- Looks a reference up; `follow` looks up the exported type that is met, if any. -/
def lookupStep (follow : TypeRef → Option Place) : TypeRef → Option Place
  | .mk space name scope _ => lookupScope follow space name scope

def lookupScope (follow : TypeRef → Option Place) (space name : String) : Scope → Option Place
  | .assembly a => (w (Universe.key a)).bind (inAssembly follow space name (Universe.key a))
  | .nested declaring => (lookupStep follow declaring).bind (·.nested? space name)

end

/-- Looks a reference up by following fewer than `hops` exported types. -/
def lookupWithin : Nat → TypeRef → Option Place
  | 0, _ => none
  | hops + 1, t => w.lookupStep (lookupWithin hops) t

/-- Looks a reference up. -/
def lookup (t : TypeRef) : Option Place :=
  w.lookupWithin (Universe.maxForwards + 1) t

/-- No chain of exported types that ends in a definition has `hops` of them or more. -/
def Shallow (hops : Nat) : Prop :=
  ∀ n t x, w.lookupWithin n t = some x → w.lookupWithin hops t = some x

/-- The assembly of the place has the definition at its position. -/
def Located (x : Place) : Prop :=
  ∃ a, w x.key = some a ∧ a.definitionAt? x.found.position = some x.found.type

variable {w}

/-! ## Following more -/

theorem inAssembly_mono {follow follow' : TypeRef → Option Place} {space name key : String}
    {a : Assembly} (h : ∀ e ∈ a.exported, ∀ x, follow e = some x → follow' e = some x) {x : Place}
    (hx : inAssembly follow space name key a = some x) :
    inAssembly follow' space name key a = some x := by
  unfold inAssembly at hx ⊢
  split at hx
  · exact hx
  · split at hx
    · cases hx
    · next e he =>
      split at hx
      · cases hx
      · next hself => simpa [hself] using h e (List.mem_of_find?_eq_some he) x hx

mutual

/-- Only the exported types of one assembly are followed. -/
theorem lookupStep_mono {follow follow' : TypeRef → Option Place} : (t : TypeRef) →
    (∀ a, w (Universe.key t.assembly) = some a → ∀ e ∈ a.exported, ∀ x, follow e = some x →
      follow' e = some x) →
    (x : Place) → w.lookupStep follow t = some x → w.lookupStep follow' t = some x
  | .mk space name scope _, h, x, hx => lookupScope_mono space name scope h x hx

theorem lookupScope_mono {follow follow' : TypeRef → Option Place} (space name : String) :
    (s : Scope) → (∀ a, w (Universe.key s.assemblyName) = some a → ∀ e ∈ a.exported, ∀ x,
      follow e = some x → follow' e = some x) →
    (x : Place) → w.lookupScope follow space name s = some x →
      w.lookupScope follow' space name s = some x
  | .assembly a, h, x, hx => by
    rw [lookupScope, Option.bind_eq_some_iff] at hx ⊢
    obtain ⟨b, hb, hx⟩ := hx
    exact ⟨b, hb, inAssembly_mono (h b hb) hx⟩
  | .nested d, h, x, hx => by
    rw [lookupScope, Option.bind_eq_some_iff] at hx ⊢
    obtain ⟨y, hy, hx⟩ := hx
    exact ⟨y, lookupStep_mono d h y hy, hx⟩

end

theorem lookupWithin_succ (n : Nat) (t : TypeRef) (x : Place)
    (hx : w.lookupWithin n t = some x) : w.lookupWithin (n + 1) t = some x := by
  induction n generalizing t x with
  | zero => cases hx
  | succ n ih => exact lookupStep_mono t (fun _ _ e _ y hy => ih e y hy) x hx

/-- Following more exported types finds no less. -/
theorem lookupWithin_le {n m : Nat} (hnm : n ≤ m) {t : TypeRef} {x : Place}
    (hx : w.lookupWithin n t = some x) : w.lookupWithin m t = some x := by
  induction hnm with
  | refl => exact hx
  | step _ ih => exact lookupWithin_succ _ t x ih

theorem Shallow.succ {hops : Nat} (h : w.Shallow hops) : w.Shallow (hops + 1) :=
  fun n t x hx => lookupWithin_succ hops t x (h n t x hx)

/-- However many exported types are followed, what is found is one definition. -/
theorem lookupWithin_unique {n m : Nat} {t : TypeRef} {x y : Place}
    (hx : w.lookupWithin n t = some x) (hy : w.lookupWithin m t = some y) : x = y := by
  have hx' := lookupWithin_le (Nat.le_max_left n m) hx
  have hy' := lookupWithin_le (Nat.le_max_right n m) hy
  exact Option.some.inj (hx'.symm.trans hy')

/-- Exported types that lead to assemblies of lower rank make no long chains. -/
theorem shallow_of_rank (rank : String → Nat) (h : ∀ k a, w k = some a → ∀ e ∈ a.exported,
    rank (Universe.key e.assembly) < rank k) {hops : Nat} (hrank : ∀ k, rank k < hops) :
    w.Shallow hops := by
  have hlookup : ∀ n r t x, rank (Universe.key t.assembly) < r → w.lookupWithin n t = some x →
      w.lookupWithin r t = some x := by
    intro n
    induction n with
    | zero => intro r t x _ hx; cases hx
    | succ n ih =>
      intro r t x hr hx
      cases r with
      | zero => omega
      | succ r =>
        refine lookupStep_mono t (fun a ha e he y hy => ih r e y ?_ hy) x hx
        have hlower := h _ a ha e he
        omega
  intro n t x hx
  exact hlookup n hops t x (hrank _) hx

theorem shallow_of_exported_nil (h : ∀ k a, w k = some a → a.exported = []) {hops : Nat}
    (hhops : 0 < hops) : w.Shallow hops := by
  refine shallow_of_rank (fun _ => 0) (fun k a ha e he => ?_) fun _ => hhops
  rw [h k a ha] at he
  exact absurd he List.not_mem_nil

/-! ## Positions -/

end World

theorem TypeDefinition.getElem?_of_first? {space name : String} {ts : List TypeDefinition}
    {i : Nat} {t : TypeDefinition} (h : first? space name ts = some (i, t)) : ts[i]? = some t := by
  obtain ⟨x, hx, he⟩ := Option.map_eq_some_iff.1 h
  cases he
  exact List.mem_zipIdx_iff_getElem?.1 (List.mem_of_find?_eq_some hx)

theorem TypeDefinition.descend_append (t : TypeDefinition) (p q : List Nat) :
    t.descend (p ++ q) = (t.descend p).bind (·.descend q) := by
  induction p generalizing t with
  | nil => rfl
  | cons i p ih =>
    rw [List.cons_append, descend, descend]
    cases t.nestedTypes[i]? with
    | none => rfl
    | some u => exact ih u

theorem Assembly.definitionAt?_of_find? {a : Assembly} {space name : String} {f : Found}
    (h : a.find? space name = some f) : a.definitionAt? f.position = some f.type := by
  obtain ⟨⟨i, t⟩, ht, rfl⟩ := Option.map_eq_some_iff.1 h
  rw [definitionAt?, TypeDefinition.getElem?_of_first? ht]
  rfl

theorem Assembly.definitionAt?_of_nested? {a : Assembly} {space name : String} {f g : Found}
    (hf : a.definitionAt? f.position = some f.type) (h : f.nested? space name = some g) :
    a.definitionAt? g.position = some g.type := by
  obtain ⟨⟨i, t⟩, ht, rfl⟩ := Option.map_eq_some_iff.1 h
  cases hp : f.position with
  | nil => rw [hp] at hf; cases hf
  | cons j p =>
    rw [hp, definitionAt?] at hf
    obtain ⟨u, hu, hd⟩ := Option.bind_eq_some_iff.1 hf
    have hnext : f.type.descend [i] = some t := by
      rw [TypeDefinition.descend, TypeDefinition.getElem?_of_first? ht]
      rfl
    rw [List.cons_append, definitionAt?, hu, Option.bind_some, TypeDefinition.descend_append, hd,
      Option.bind_some, hnext]

namespace World

variable {w : World}

mutual

theorem located_of_lookupStep {follow : TypeRef → Option Place}
    (h : ∀ t x, follow t = some x → w.Located x) : (t : TypeRef) → (x : Place) →
    w.lookupStep follow t = some x → w.Located x
  | .mk space name scope _, x, hx => located_of_lookupScope h space name scope x hx

theorem located_of_lookupScope {follow : TypeRef → Option Place}
    (h : ∀ t x, follow t = some x → w.Located x) (space name : String) : (s : Scope) →
    (x : Place) → w.lookupScope follow space name s = some x → w.Located x
  | .assembly a, x, hx => by
    rw [lookupScope, Option.bind_eq_some_iff] at hx
    obtain ⟨b, hb, hx⟩ := hx
    unfold inAssembly at hx
    split at hx
    · next f hf =>
      cases hx
      exact ⟨b, hb, Assembly.definitionAt?_of_find? hf⟩
    · split at hx
      · cases hx
      · split at hx
        · cases hx
        · exact h _ _ hx
  | .nested d, x, hx => by
    rw [lookupScope, Option.bind_eq_some_iff] at hx
    obtain ⟨y, hy, hx⟩ := hx
    obtain ⟨b, hb, hdef⟩ := located_of_lookupStep h d y hy
    obtain ⟨g, hg, rfl⟩ := Option.map_eq_some_iff.1 hx
    exact ⟨b, hb, Assembly.definitionAt?_of_nested? hdef hg⟩

end

/-- What is found stands at its position. -/
theorem located_of_lookupWithin {n : Nat} {t : TypeRef} {x : Place}
    (hx : w.lookupWithin n t = some x) : w.Located x := by
  induction n generalizing t x with
  | zero => cases hx
  | succ n ih => exact located_of_lookupStep (fun _ _ h => ih h) t x hx

end World

end ApiEvolution
