/-!
# Bounded decimal numbers

Reading an unsigned number in decimal digits below a given limit: one leading `+` is allowed and
leading zeros do not count. `read?_lt` says that what is read respects the limit.
-/

namespace ApiEvolution.Text.Decimal

/-- The value of an ASCII digit. -/
def digit? (c : Char) : Option Nat :=
  if 48 ≤ c.toNat ∧ c.toNat ≤ 57 then some (c.toNat - 48) else none

/-- The value of a row of digits that follows the number `value`. -/
def digits? (value : Nat) : List Char → Option Nat
  | [] => some value
  | c :: rest =>
    match digit? c with
    | none => none
    | some d => digits? (10 * value + d) rest

/-- Drops one plus sign at the front. -/
def unsigned : List Char → List Char
  | '+' :: rest => rest
  | s => s

/-- A number below `limit`: an optional plus sign and at least one digit. -/
def read? (limit : Nat) (s : List Char) : Option Nat :=
  match unsigned s with
  | [] => none
  | ds => (digits? 0 ds).filter (· < limit)

/-- The decimal digits of a number. -/
def render (n : Nat) : String :=
  String.ofList (Nat.toDigits 10 n)

/-! ## Laws -/

theorem read?_lt {limit n : Nat} {s : List Char} (h : read? limit s = some n) : n < limit := by
  unfold read? at h
  split at h
  · simp at h
  · simpa using (Option.filter_eq_some_iff.1 h).2

end ApiEvolution.Text.Decimal
