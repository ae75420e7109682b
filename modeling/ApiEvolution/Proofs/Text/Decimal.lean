import Mathlib.Data.Nat.Digits.Defs
import ApiEvolution.Text.Decimal

/-!
# Decimal numerals

`Numeral s n` says that `s` is a way to write `n`: a row of decimal digits, with zeros in front of
it or not, and perhaps a plus sign before them. Reading takes exactly the numerals of the numbers
below the limit (`read?_eq_some_iff`), and what is written is a numeral (`numeral_render`).
-/

namespace ApiEvolution.Text.Decimal

/-- The text of a row of digits. -/
def rowOf (ds : List Nat) : List Char :=
  ds.map Nat.digitChar

/-- The text is a row of digits with the value `n`, with or without a plus sign before it. -/
def Numeral (s : List Char) (n : Nat) : Prop :=
  ∃ ds : List Nat, ds ≠ [] ∧ (∀ d ∈ ds, d < 10) ∧ n = Nat.ofDigits 10 ds.reverse ∧
    (s = rowOf ds ∨ s = '+' :: rowOf ds)

/-! ## Digits -/

theorem digit?_digitChar {d : Nat} (h : d < 10) : digit? (Nat.digitChar d) = some d := by
  have hall : ∀ d < 10, digit? (Nat.digitChar d) = some d := by decide
  exact hall d h

theorem digitChar_of_digit? {c : Char} {d : Nat} (h : digit? c = some d) :
    d < 10 ∧ Nat.digitChar d = c := by
  have hall : ∀ k < 58, 48 ≤ k → Nat.digitChar (k - 48) = Char.ofNat k := by decide
  unfold digit? at h
  split at h
  · next hc =>
    cases h
    refine ⟨by omega, ?_⟩
    rw [hall c.toNat (by omega) hc.1, Char.ofNat_toNat]
  · cases h

/-- The value of a row of digits behind those of another number. -/
theorem digits?_rowOf (value : Nat) {ds : List Nat} (h : ∀ d ∈ ds, d < 10) :
    digits? value (rowOf ds) = some (Nat.ofDigits 10 (ds.reverse ++ [value])) := by
  induction ds generalizing value with
  | nil => simp [rowOf, digits?]
  | cons d ds ih =>
    obtain ⟨hd, hds⟩ := List.forall_mem_cons.1 h
    have hvalue : Nat.ofDigits 10 (ds.reverse ++ [10 * value + d]) =
        Nat.ofDigits 10 (ds.reverse ++ [d] ++ [value]) := by
      rw [List.append_assoc, Nat.ofDigits_append, Nat.ofDigits_append]
      simp [Nat.ofDigits_cons, Nat.add_comm]
    have hrest := ih (10 * value + d) hds
    rw [rowOf] at hrest
    simp only [rowOf, List.map_cons, digits?, digit?_digitChar hd, hrest, hvalue,
      List.reverse_cons]

/-- Only rows of digits have a value. -/
theorem exists_rowOf_of_digits? {value n : Nat} {s : List Char} (h : digits? value s = some n) :
    ∃ ds : List Nat, (∀ d ∈ ds, d < 10) ∧ s = rowOf ds := by
  induction s generalizing value with
  | nil => exact ⟨[], nofun, rfl⟩
  | cons c s ih =>
    unfold digits? at h
    split at h
    · cases h
    · next d hd =>
      obtain ⟨hlt, hc⟩ := digitChar_of_digit? hd
      obtain ⟨ds, hds, rfl⟩ := ih h
      refine ⟨d :: ds, List.forall_mem_cons.2 ⟨hlt, hds⟩, ?_⟩
      simp only [rowOf, List.map_cons, hc]

/-- A row of digits alone has its value. -/
theorem digits?_zero {ds : List Nat} (h : ∀ d ∈ ds, d < 10) :
    digits? 0 (rowOf ds) = some (Nat.ofDigits 10 ds.reverse) := by
  rw [digits?_rowOf 0 h, Nat.ofDigits_append_zero]

/-! ## Numerals -/

/-- No digit is a plus sign. -/
theorem unsigned_rowOf {ds : List Nat} (h : ∀ d ∈ ds, d < 10) : unsigned (rowOf ds) = rowOf ds := by
  cases ds with
  | nil => rfl
  | cons d ds =>
    have hplus : ∀ d < 10, Nat.digitChar d ≠ '+' := by decide
    have hd := hplus d (h d List.mem_cons_self)
    unfold unsigned
    split
    · next heq =>
      rw [rowOf, List.map_cons, List.cons.injEq] at heq
      exact absurd heq.1 hd
    · rfl

/-- The plus sign may be left out. -/
theorem eq_or_eq_unsigned (s : List Char) : s = unsigned s ∨ s = '+' :: unsigned s := by
  unfold unsigned
  split
  · exact .inr rfl
  · exact .inl rfl

/-- What can be read are the numerals of the numbers below the limit. -/
theorem read?_eq_some_iff {limit n : Nat} {s : List Char} :
    read? limit s = some n ↔ Numeral s n ∧ n < limit := by
  constructor
  · intro h
    refine ⟨?_, read?_lt h⟩
    unfold read? at h
    split at h
    · cases h
    · next ds hne =>
      obtain ⟨hvalue, -⟩ := Option.filter_eq_some_iff.1 h
      obtain ⟨digits, hlt, hrow⟩ := exists_rowOf_of_digits? hvalue
      have hvalue' := digits?_zero hlt
      rw [← hrow, hvalue, Option.some.injEq] at hvalue'
      refine ⟨digits, ?_, hlt, hvalue', hrow ▸ eq_or_eq_unsigned s⟩
      rintro rfl
      exact hne hrow
  · rintro ⟨⟨ds, hne, hlt, rfl, hs⟩, hlimit⟩
    have hunsigned : unsigned s = rowOf ds := by
      rcases hs with rfl | rfl
      · exact unsigned_rowOf hlt
      · rfl
    have hrow : rowOf ds ≠ [] := by simpa [rowOf] using hne
    unfold read?
    rw [hunsigned]
    split
    · next heq => exact absurd heq hrow
    · rw [digits?_zero hlt, Option.filter_some, if_pos (by simpa using hlimit)]

/-- What is written is a numeral. -/
theorem numeral_render (n : Nat) : Numeral (render n).toList n := by
  suffices h : ∃ ds : List Nat, ds ≠ [] ∧ (∀ d ∈ ds, d < 10) ∧ n = Nat.ofDigits 10 ds.reverse ∧
      Nat.toDigits 10 n = rowOf ds by
    obtain ⟨ds, hne, hlt, hvalue, hrow⟩ := h
    exact ⟨ds, hne, hlt, hvalue, .inl (by rw [render, String.toList_ofList, hrow])⟩
  induction n using Nat.strong_induction_on with
  | _ n ih =>
    rw [Nat.toDigits_eq_if (by decide)]
    split
    · next hlt => exact ⟨[n], by simp, by simpa using hlt, by simp, rfl⟩
    · next hle =>
      obtain ⟨ds, -, hlt, hvalue, hrow⟩ := ih (n / 10) (by omega)
      refine ⟨ds ++ [n % 10], by simp, ?_, ?_, ?_⟩
      · intro d hd
        rcases List.mem_append.1 hd with hd | hd
        · exact hlt d hd
        · rw [List.mem_singleton.1 hd]
          omega
      · rw [List.reverse_append, List.reverse_singleton, List.singleton_append, Nat.ofDigits_cons,
          ← hvalue]
        exact (Nat.mod_add_div n 10).symm
      · rw [hrow, rowOf, rowOf, List.map_append, List.map_singleton]

end ApiEvolution.Text.Decimal
