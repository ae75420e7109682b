import ApiEvolution.Surface.TypeDefinition

/-!
# Traversals in reading order

A traversal goes through the references of a surface one after the other: its effects are those of
going through the list of the references, and the references of its value are the values of that
(`Visits`). So what is to be known about the references alone is known from lists.
-/

namespace ApiEvolution

variable {m : Type → Type} [Monad m] {f : TypeRef → m TypeRef} {α β γ : Type}

/-- The step `x` does with the references `rs` what `f` does with each of them in turn. The references
of its value are those in `done` and then what `rs` are replaced by. -/
def VisitsAfter (done : List TypeRef) (f : TypeRef → m TypeRef) (x : m α) (rs : List TypeRef)
    (refs : α → List TypeRef) : Prop :=
  refs <$> x = (done ++ ·) <$> rs.mapM f

/-- The references of the value are what `rs` are replaced by. -/
abbrev Visits (f : TypeRef → m TypeRef) (x : m α) (rs : List TypeRef) (refs : α → List TypeRef) :
    Prop :=
  VisitsAfter [] f x rs refs

variable [LawfulMonad m]

namespace Visits

variable {x : m α} {rs rs' done : List TypeRef} {r : α → List TypeRef} {s : β → List TypeRef}

theorem map_eq (h : Visits f x rs r) : r <$> x = rs.mapM f :=
  h.trans (id_map _)

theorem pure (a : α) (h : r a = []) : Visits f (pure a) [] r := by
  rw [Visits, VisitsAfter, map_pure, h, List.mapM_nil, map_pure, List.append_nil]

theorem single (t : TypeRef) : Visits f (f t) [t] fun t => [t] := by
  rw [Visits, VisitsAfter, List.mapM_cons, List.mapM_nil]
  simp only [map_eq_pure_bind, bind_assoc, pure_bind, List.nil_append]

/-- What is visited next comes behind what has been visited. -/
theorem bind {k : α → m β} (hx : Visits f x rs r)
    (hk : ∀ a, VisitsAfter (done ++ r a) f (k a) rs' s) :
    VisitsAfter done f (x >>= k) (rs ++ rs') s := by
  have hk' : ∀ a, s <$> k a = (fun rs => done ++ r a ++ rs) <$> rs'.mapM f := hk
  rw [VisitsAfter, map_bind, funext hk', List.mapM_append, ← hx.map_eq]
  simp only [map_eq_pure_bind, bind_assoc, pure_bind, List.append_assoc]

/-- What is made of the last value has its references behind those that have been visited. -/
theorem last {g : α → β} (hx : Visits f x rs r) (hs : ∀ a, s (g a) = done ++ r a) :
    VisitsAfter done f (do return g (← x)) rs s := by
  rw [VisitsAfter, ← hx.map_eq]
  simp only [map_eq_pure_bind, bind_assoc, pure_bind, hs]

theorem mapM {ι : Type} {xs : List ι} {g : ι → m α} {rs : ι → List TypeRef}
    (h : ∀ i ∈ xs, Visits f (g i) (rs i) r) :
    Visits f (xs.mapM g) (xs.flatMap rs) fun as => as.flatMap r := by
  induction xs with
  | nil => exact .pure [] rfl
  | cons i xs ih =>
    have hrest := ih fun j hj => h j (List.mem_cons_of_mem i hj)
    rw [List.mapM_cons, List.flatMap_cons]
    exact (h i List.mem_cons_self).bind fun a => hrest.last fun as => List.flatMap_cons

end Visits

/-! ## Surfaces -/

namespace Signature

mutual

theorem visits_traverse : (s : Signature) → Visits f (s.traverse f) s.refs refs
  | named t => (Visits.single t).last fun _ => rfl
  | generic t ss =>
    Visits.bind (Visits.single t) fun _ => (visits_traverseAll ss).last fun _ => rfl
  | typeParameter _ => .pure _ rfl
  | methodParameter _ => .pure _ rfl
  | array s => (visits_traverse s).last fun _ => rfl
  | byReference s => (visits_traverse s).last fun _ => rfl
  | pointer s => (visits_traverse s).last fun _ => rfl

theorem visits_traverseAll : (ss : List Signature) →
    Visits f (traverseAll f ss) (refsOf ss) refsOf
  | [] => .pure _ rfl
  | s :: ss =>
    Visits.bind (visits_traverse s) fun _ => (visits_traverseAll ss).last fun _ => rfl

end

theorem visits_option (s : Option Signature) :
    Visits f (s.mapM (·.traverse f)) (refsOf s.toList) fun s => refsOf s.toList := by
  cases s with
  | none => exact .pure none rfl
  | some s =>
    have hrefs (s : Signature) : refsOf (some s).toList = s.refs := List.append_nil s.refs
    rw [Option.mapM_some, ← bind_pure_comp, hrefs]
    exact (visits_traverse s).last hrefs

end Signature

theorem GenericParameter.visits_traverse (p : GenericParameter) :
    Visits f (p.traverse f) p.refs refs :=
  (Signature.visits_traverseAll p.constraints).last fun _ => rfl

theorem GenericParameter.visits_mapM (ps : List GenericParameter) :
    Visits f (ps.mapM (·.traverse f)) (refsOf ps) refsOf :=
  Visits.mapM fun p _ => p.visits_traverse

theorem Method.visits_traverse (method : Method) :
    Visits f (method.traverse f) method.refs refs := by
  rw [refs, List.append_assoc]
  refine (GenericParameter.visits_mapM method.genericParameters).bind fun _ => ?_
  refine (Signature.visits_traverseAll method.parameters).bind fun _ => ?_
  exact (Signature.visits_option method.returnType).last fun _ => rfl

theorem MemberKind.visits_traverse (k : MemberKind) : Visits f (k.traverse f) k.refs refs := by
  cases k with
  | method method => exact method.visits_traverse.last fun _ => rfl
  | field t => exact (Signature.visits_option t).last fun _ => rfl
  | property t => exact (Signature.visits_option t).last fun _ => rfl
  | event t => exact (Signature.visits_option t).last fun _ => rfl

theorem Member.visits_traverse (member : Member) : Visits f (member.traverse f) member.refs refs :=
  member.kind.visits_traverse.last fun _ => rfl

namespace TypeDefinition

mutual

theorem visits_traverse : (t : TypeDefinition) → Visits f (t.traverse f) t.refs refs
  | ⟨d, flags, ps, members, nested⟩ => by
    rw [refs, List.append_assoc]
    refine (GenericParameter.visits_mapM ps).bind fun _ => ?_
    refine (Visits.mapM fun member _ => member.visits_traverse).bind fun _ => ?_
    exact (visits_traverseAll nested).last fun _ => rfl

theorem visits_traverseAll : (ts : List TypeDefinition) →
    Visits f (traverseAll f ts) (refsOf ts) refsOf
  | [] => .pure _ rfl
  | t :: ts => (visits_traverse t).bind fun _ => (visits_traverseAll ts).last fun _ => rfl

end

end TypeDefinition

end ApiEvolution
