/-!
# Order of texts

Texts are ordered by code point, a text before its continuations. The order is written out here, so
that sorted output depends on nothing but the characters. It is a linear order: `order_swap`,
`order_eq_eq_iff` and `order_isLE_trans`.
-/

namespace ApiEvolution.Text

/-- Comparison of two numbers. -/
def orderNat (m n : Nat) : Ordering :=
  if m < n then .lt else if m = n then .eq else .gt

/-- The first differing code point decides. -/
def orderChars : List Char → List Char → Ordering
  | [], [] => .eq
  | [], _ :: _ => .lt
  | _ :: _, [] => .gt
  | c :: s, d :: t => (orderNat c.toNat d.toNat).then (orderChars s t)

/-- Comparison of two texts. -/
def order (s t : String) : Ordering :=
  orderChars s.toList t.toList

/-- Comparison of two optional texts; absence comes first. -/
def orderOption : Option String → Option String → Ordering
  | none, none => .eq
  | none, some _ => .lt
  | some _, none => .gt
  | some s, some t => order s t

/-- Comparison of two pairs of texts, the first components first. -/
def orderPair (s t : String × String) : Ordering :=
  (order s.1 t.1).then (order s.2 t.2)

/-! ## Laws -/

theorem orderNat_swap (m n : Nat) : (orderNat m n).swap = orderNat n m := by
  rcases Nat.lt_trichotomy m n with h | rfl | h
  · simp [orderNat, h, Nat.lt_asymm h, Nat.ne_of_gt h]
  · simp [orderNat]
  · simp [orderNat, h, Nat.lt_asymm h, Nat.ne_of_gt h]

theorem orderNat_eq_eq_iff {m n : Nat} : orderNat m n = .eq ↔ m = n := by
  grind [orderNat]

theorem orderChars_swap (s t : List Char) : (orderChars s t).swap = orderChars t s := by
  induction s generalizing t with
  | nil => cases t <;> rfl
  | cons c s ih =>
    cases t with
    | nil => rfl
    | cons d t => simp [orderChars, Ordering.swap_then, orderNat_swap, ih]

theorem orderChars_eq_eq_iff {s t : List Char} : orderChars s t = .eq ↔ s = t := by
  induction s generalizing t with
  | nil => cases t <;> simp [orderChars]
  | cons c s ih =>
    cases t with
    | nil => simp [orderChars]
    | cons d t =>
      simp [orderChars, Ordering.then_eq_eq, orderNat_eq_eq_iff, ih, Char.toNat_inj]

theorem orderChars_isLE_trans {s t u : List Char} (h : (orderChars s t).isLE)
    (h' : (orderChars t u).isLE) : (orderChars s u).isLE := by
  induction s generalizing t u with
  | nil => cases u <;> rfl
  | cons c s ih =>
    cases t with
    | nil => simp [orderChars] at h
    | cons d t =>
      cases u with
      | nil => simp [orderChars] at h'
      | cons e u =>
        simp only [orderChars, Ordering.isLE_then_iff_or] at h h' ⊢
        grind [orderNat]

theorem order_swap (s t : String) : (order s t).swap = order t s :=
  orderChars_swap s.toList t.toList

theorem order_eq_eq_iff {s t : String} : order s t = .eq ↔ s = t :=
  orderChars_eq_eq_iff.trans String.toList_inj

theorem order_isLE_trans {s t u : String} (h : (order s t).isLE) (h' : (order t u).isLE) :
    (order s u).isLE :=
  orderChars_isLE_trans h h'

end ApiEvolution.Text
