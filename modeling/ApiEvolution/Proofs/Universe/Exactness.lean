import ApiEvolution.Proofs.Universe.Soundness

/-!
# Binding without shortcuts

In a world without long chains of exported types there is nothing that only shortcuts reach. There
every reference is bound to what it leads to, whatever was bound before (`Universe.Sound.exact`).
-/

namespace ApiEvolution

namespace World

variable (w : World)

/-- Whatever the reference leads to has been read, unless the reference is bound anyway. -/
def Known (u : Universe) (t : TypeRef) : Prop :=
  t.isBound = false → ∀ x, w.lookup t = some x → ∃ id, u.idOf x.key = some id

/-- The binding of a reference to what it leads to. -/
def bindingIn (u : Universe) (t : TypeRef) : Binding :=
  match w.lookup t with
  | none => .unresolved
  | some x =>
    match u.idOf x.key with
    | none => .unresolved
    | some id => .resolved ⟨id, x.found.position⟩ x.found.type.descriptor

/-- The reference with its binding; descriptors of definitions stay. -/
def bindIn (u : Universe) (t : TypeRef) : TypeRef :=
  if t.isBound then t else t.withBinding (w.bindingIn u t)

variable {w} {u : Universe} {t t' : TypeRef} {m n : Module} {a b : Assembly}

theorem bindIn_of_isBound (h : t.isBound) : w.bindIn u t = t :=
  if_pos h

/-- The reference is bound to what it leads to, which has been read. -/
theorem Answered.exact (hshallow : w.Shallow (Universe.maxForwards + 1)) (h : w.Answered u t t') :
    w.bindIn u t = t' ∧ w.Known u t := by
  cases h with
  | kept hbound =>
    exact ⟨bindIn_of_isBound hbound, fun hno => absurd (hbound.symm.trans hno) (by decide)⟩
  | unresolved hbound hnone =>
    refine ⟨?_, fun _ x hx => ?_⟩
    · rw [bindIn, hbound]
      simp only [Bool.false_eq_true, if_false, bindingIn, hnone]
    · rw [hnone] at hx
      cases hx
  | @resolved x id hbound hx hid =>
    obtain ⟨n, hx⟩ := hx.lookup
    have hx : w.lookup t = some x := hshallow n t x hx
    refine ⟨?_, fun _ y hy => ?_⟩
    · rw [bindIn, hbound]
      simp only [Bool.false_eq_true, if_false, bindingIn, hx, hid]
    · rw [hx] at hy
      cases hy
      exact ⟨id, hid⟩

theorem ModuleSettled.exact (hshallow : w.Shallow (Universe.maxForwards + 1))
    (h : w.ModuleSettled u m n) : m.rebind (w.bindIn u) = n := by
  have htypes : TypeDefinition.rebindAll (w.bindIn u) m.types = n.types :=
    h.types.rebindAll_eq fun _ _ hr => (hr.exact hshallow).1
  have hexported : m.exported.map (w.bindIn u) = n.exported :=
    eq_map_of_forall₂ (h.exported.imp fun _ _ hr => (hr.exact hshallow).1)
  rw [Module.rebind, htypes, hexported, ← h.name]

theorem Settled.exact (hshallow : w.Shallow (Universe.maxForwards + 1)) (h : w.Settled u a b) :
    a.rebind (w.bindIn u) = b ∧ ∀ r ∈ a.references, w.Known u r := by
  refine ⟨?_, fun r hr => ?_⟩
  · have hmodules : a.modules.map (.rebind (w.bindIn u)) = b.modules :=
      eq_map_of_forall₂ (h.modules.imp fun _ _ hm => hm.exact hshallow)
    rw [Assembly.rebind, hmodules, ← h.name]
  · obtain ⟨r', hr'⟩ := h.exists_answer hr
    exact (hr'.exact hshallow).2

end World

/-- Everything that was read is bound to what it leads to, as far as that was read, too. -/
def Universe.Exact (w : World) (u : Universe) : Prop :=
  ∀ k id, u.idOf k = some id → id.context = u.context ∧ ∃ a, w k = some a ∧
    u.assembly? id = some ⟨id, a.rebind (w.bindIn u)⟩ ∧ ∀ r ∈ a.references, w.Known u r

theorem Universe.Sound.exact {w : World} {read : Reader} {u : Universe} (h : u.Sound w read [])
    (hshallow : w.Shallow (Universe.maxForwards + 1)) : u.Exact w := by
  intro k id hid
  have hentry := Option.join_eq_some_iff.1 hid
  obtain ⟨a, l, ha, hl, -⟩ := h.present k id hentry
  obtain rfl := assembly?_id hl
  obtain ⟨hrebind, hknown⟩ :=
    (h.settled k l.id a l hentry ha hl List.not_mem_nil).exact hshallow
  refine ⟨(h.fresh l (List.mem_of_find?_eq_some hl)).1, a, ha, ?_, hknown⟩
  rw [hrebind, hl]

end ApiEvolution
