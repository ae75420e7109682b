/-!
# ASCII letter case

Simple names of assemblies are compared without regard to the case of the letters `A` to `Z`; all
other characters stand for themselves. `lower s` is the representative of the class of `s`, so
`sameLetters` is an equivalence relation.
-/

namespace ApiEvolution.Text

/-- Small letter of a letter `A` to `Z`; every other character is its own small letter. -/
def lowerChar (c : Char) : Char :=
  if 65 ≤ c.toNat ∧ c.toNat ≤ 90 then Char.ofNat (c.toNat + 32) else c

/-- The text with `A` to `Z` in small letters. -/
def lower (s : String) : String :=
  String.ofList (s.toList.map lowerChar)

/-- Equality up to the case of `A` to `Z`. -/
def sameLetters (s t : String) : Bool :=
  lower s == lower t

/-! ## Laws -/

theorem sameLetters_refl (s : String) : sameLetters s s := by
  simp [sameLetters]

theorem sameLetters_comm (s t : String) : sameLetters s t = sameLetters t s := by
  simp only [sameLetters, Bool.beq_comm]

theorem sameLetters_trans {s t u : String} (h : sameLetters s t) (h' : sameLetters t u) :
    sameLetters s u := by
  simp_all [sameLetters]

theorem sameLetters_iff {s t : String} : sameLetters s t ↔ lower s = lower t := by
  simp [sameLetters]

end ApiEvolution.Text
