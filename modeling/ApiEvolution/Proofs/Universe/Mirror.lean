import Mathlib.Data.List.Forall2
import ApiEvolution.Proofs.Surface.Rebinding
import ApiEvolution.Proofs.Surface.Shape

/-!
# What resolution sees of an assembly

To resolve a reference it is enough to know the descriptors of types, which types are nested in
which, and the exported types. So an assembly can be looked into while its references are still
being bound: it `Mirrors` the assembly that was read. What is found in it is what is found in that
one (`Assembly.Mirrors.find?`, `Assembly.Mirrors.findExported?`).
-/

namespace ApiEvolution

/-! ## Outlines -/

namespace TypeDefinition

mutual

/-- The descriptors of the type and of the types nested in it. -/
def outline : TypeDefinition → TypeDefinition
  | ⟨d, _, _, _, nested⟩ => ⟨d, 0, [], [], outlineAll nested⟩

def outlineAll : List TypeDefinition → List TypeDefinition
  | [] => []
  | t :: rest => t.outline :: outlineAll rest

end

theorem outlineAll_eq (ts : List TypeDefinition) : outlineAll ts = ts.map outline := by
  induction ts with
  | nil => rfl
  | cons t ts ih => rw [outlineAll, ih, List.map_cons]

@[simp] theorem descriptor_outline (t : TypeDefinition) : t.outline.descriptor = t.descriptor := by
  cases t
  rfl

theorem nestedTypes_outline (t : TypeDefinition) :
    t.outline.nestedTypes = t.nestedTypes.map outline := by
  cases t
  exact outlineAll_eq _

theorem descriptor_eq_of_outline {t u : TypeDefinition} (h : t.outline = u.outline) :
    t.descriptor = u.descriptor := by
  rw [← descriptor_outline t, h, descriptor_outline]

mutual

/-- Binding references leaves the outline. -/
theorem outline_rebind (f : TypeRef → TypeRef) : (t : TypeDefinition) →
    (t.rebind f).outline = t.outline
  | ⟨d, flags, g, m, nested⟩ => by rw [rebind, outline, outline, outlineAll_rebindAll f nested]

theorem outlineAll_rebindAll (f : TypeRef → TypeRef) : (ts : List TypeDefinition) →
    outlineAll (rebindAll f ts) = outlineAll ts
  | [] => rfl
  | t :: ts => by
    rw [rebindAll, outlineAll, outlineAll, outline_rebind f t, outlineAll_rebindAll f ts]

end

theorem shaping_outline : Shaping outline :=
  ⟨fun space name t => by rw [isNamed, isNamed, descriptor_outline], nestedTypes_outline⟩

end TypeDefinition

namespace Found

def outline (f : Found) : Found :=
  ⟨f.position, f.type.outline⟩

theorem nested?_outline (f : Found) (space name : String) :
    (f.nested? space name).map outline = f.outline.nested? space name :=
  (TypeDefinition.shaping_outline.nested? f space name).symm

end Found

/-! ## Mirrors -/

theorem forall₂_modify {α β : Type} {R : α → β → Prop} {xs : List α} {ys : List β} {f : β → β}
    (h : List.Forall₂ R xs ys) (i : Nat) (hf : ∀ x y, xs[i]? = some x → R x y → R x (f y)) :
    List.Forall₂ R xs (ys.modify i f) := by
  induction h generalizing i with
  | nil =>
    rw [List.modify_nil]
    exact .nil
  | @cons x y xs ys hxy hrest ih =>
    cases i with
    | zero => exact .cons (hf x y rfl hxy) hrest
    | succ i => exact .cons hxy (ih i hf)

theorem forall₂_set {α β : Type} {R : α → β → Prop} {xs : List α} {ys : List β} {x : α} {u : β}
    (h : List.Forall₂ R xs ys) {j : Nat} (hx : xs[j]? = some x) (hu : R x u) :
    List.Forall₂ R xs (ys.set j u) := by
  induction h generalizing j with
  | nil => exact .nil
  | cons hxy hrest ih =>
    cases j with
    | zero =>
      cases hx
      exact .cons hu hrest
    | succ j => exact .cons hxy (ih hx)

namespace Assembly

/-- Lists of exported types that stand in a relation have first ones of one name that do. -/
theorem rel_findExported? {R : TypeRef → TypeRef → Prop} {a b : Assembly}
    (h : List.Forall₂ R a.exported b.exported)
    (hR : ∀ t u, R t u → u.space = t.space ∧ u.name = t.name) (space name : String) :
    Option.Rel R (a.findExported? space name) (b.findExported? space name) := by
  rw [findExported?, findExported?]
  generalize a.exported = es at h
  generalize b.exported = fs at h
  induction h with
  | nil => exact .none
  | @cons t u _ _ hhead _ ih =>
    obtain ⟨hspace, hname⟩ := hR t u hhead
    rw [List.find?_cons, List.find?_cons, hspace, hname]
    split
    · exact .some hhead
    · exact ih

/-- The assembly `b` has the outlines of `a`, and exported types that stand in a relation to those
of `a`. -/
structure Mirrors (R : TypeRef → TypeRef → Prop) (a b : Assembly) : Prop where
  name : b.name = a.name
  modules : List.Forall₂ (fun m n => n.types.map TypeDefinition.outline =
    m.types.map TypeDefinition.outline ∧ List.Forall₂ R m.exported n.exported) a.modules b.modules

namespace Mirrors

variable {R S : TypeRef → TypeRef → Prop} {a b : Assembly}

theorem imp (h : a.Mirrors R b) (hRS : ∀ t u, R t u → S t u) : a.Mirrors S b :=
  ⟨h.name, h.modules.imp fun _ _ hm => ⟨hm.1, hm.2.imp hRS⟩⟩

theorem topLevel (h : a.Mirrors R b) :
    b.topLevel.map TypeDefinition.outline = a.topLevel.map TypeDefinition.outline := by
  have hm := h.modules
  rw [Assembly.topLevel, Assembly.topLevel]
  generalize a.modules = ms at hm
  generalize b.modules = ns at hm
  induction hm with
  | nil => rfl
  | cons hhead _ ih => rw [List.flatMap_cons, List.flatMap_cons, List.map_append, hhead.1, ih,
      List.map_append]

theorem exported (h : a.Mirrors R b) : List.Forall₂ R a.exported b.exported := by
  have hm := h.modules
  rw [Assembly.exported, Assembly.exported]
  generalize a.modules = ms at hm
  generalize b.modules = ns at hm
  induction hm with
  | nil => exact .nil
  | cons hhead _ ih => exact List.rel_append hhead.2 ih

theorem find? (h : a.Mirrors R b) (space name : String) :
    (b.find? space name).map Found.outline = (a.find? space name).map Found.outline := by
  have hfirst (c : Assembly) : (c.find? space name).map Found.outline =
      (TypeDefinition.first? space name (c.topLevel.map TypeDefinition.outline)).map
        fun t => ⟨[t.1], t.2⟩ := by
    rw [Assembly.find?, TypeDefinition.shaping_outline.first?, Option.map_map, Option.map_map]
    rfl
  rw [hfirst, hfirst, h.topLevel]

theorem definitionAt? (h : a.Mirrors R b) (p : List Nat) :
    (b.definitionAt? p).map TypeDefinition.outline =
      (a.definitionAt? p).map TypeDefinition.outline := by
  have hat (c : Assembly) (i : Nat) (q : List Nat) :
      (c.definitionAt? (i :: q)).map TypeDefinition.outline =
        (c.topLevel.map TypeDefinition.outline)[i]?.bind (·.descend q) := by
    rw [Assembly.definitionAt?, List.getElem?_map, Option.map_bind]
    cases c.topLevel[i]? with
    | none => rfl
    | some t => exact (TypeDefinition.shaping_outline.descend t q).symm
  cases p with
  | nil => rfl
  | cons i q => rw [hat, hat, h.topLevel]

/-- The first exported types of one name stand in the relation, if there are any. -/
theorem findExported? (h : a.Mirrors R b)
    (hR : ∀ t u, R t u → u.space = t.space ∧ u.name = t.name) (space name : String) :
    Option.Rel R (a.findExported? space name) (b.findExported? space name) :=
  rel_findExported? h.exported hR space name

/-- An exported type may be replaced by another one that stands in the relation. -/
theorem setExported (h : a.Mirrors R b) {m : Module} {i j : Nat} {t u : TypeRef}
    (hm : a.modules[i]? = some m) (ht : m.exported[j]? = some t) (hu : R t u) :
    a.Mirrors R { b with
      modules := b.modules.modify i fun n => { n with exported := n.exported.set j u } } := by
  refine ⟨h.name, forall₂_modify h.modules i fun m' n hm' hn => ⟨hn.1, ?_⟩⟩
  rw [hm] at hm'
  cases hm'
  exact forall₂_set hn.2 ht hu

end Mirrors

end Assembly

end ApiEvolution
