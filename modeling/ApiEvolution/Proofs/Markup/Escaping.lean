import ApiEvolution.Markup.Entity

/-!
# Escaped text reads back

`unescape_escapeText`, `unescape_escapeAttribute`: what is written with entities is read as it was,
whatever the characters. An escaped text has no bracket and an escaped attribute value no quote
(`not_mem_escapeText`, `not_mem_escapeAttribute`), so neither ends before it should.
-/

namespace ApiEvolution.Markup

/-! ## Reading one escaped character -/

/-- `esc` writes every character so that it is read as that character, wherever it stands. -/
def ReadsBack (esc : Char → List Char) : Prop :=
  ∀ (c : Char) (total position : Nat) (rest : List Char),
    unescapeFrom total .plain position (esc c ++ rest) =
      (unescapeFrom total .plain (position + byteLength (esc c)) rest).map (c :: ·)

theorem unescapeFrom_plain {c : Char} (h : c ≠ '&') (total position : Nat) (rest : List Char) :
    unescapeFrom total .plain position ([c] ++ rest) =
      (unescapeFrom total .plain (position + byteLength [c]) rest).map (c :: ·) := by
  simp [unescapeFrom, h, byteLength]

theorem readsBack_escapeTextChar : ReadsBack escapeTextChar := by
  intro c total position rest
  unfold escapeTextChar
  split
  · rfl
  · rfl
  · rfl
  · next h => exact unescapeFrom_plain h total position rest

theorem readsBack_escapeAttributeChar : ReadsBack escapeAttributeChar := by
  intro c total position rest
  unfold escapeAttributeChar
  split
  · rfl
  · rfl
  · exact readsBack_escapeTextChar c total position rest

/-! ## Whole texts -/

theorem unescapeFrom_flatMap {esc : Char → List Char} (h : ReadsBack esc) (s : List Char)
    (total position : Nat) : unescapeFrom total .plain position (s.flatMap esc) = .ok s := by
  induction s generalizing position with
  | nil => rfl
  | cons c s ih => rw [List.flatMap_cons, h, ih]; rfl

theorem unescape_escapeText (s : List Char) : unescape (escapeText s) = .ok s :=
  unescapeFrom_flatMap readsBack_escapeTextChar s _ _

theorem unescape_escapeAttribute (s : List Char) : unescape (escapeAttribute s) = .ok s :=
  unescapeFrom_flatMap readsBack_escapeAttributeChar s _ _

/-! ## What does not occur -/

theorem not_mem_escapeTextChar (c : Char) : '<' ∉ escapeTextChar c ∧ '>' ∉ escapeTextChar c := by
  unfold escapeTextChar
  split
  · decide
  · decide
  · decide
  · next h1 h2 _ =>
    simp only [List.mem_singleton]
    exact ⟨fun h => h1 h.symm, fun h => h2 h.symm⟩

theorem not_mem_escapeText (s : List Char) : '<' ∉ escapeText s := by
  intro h
  obtain ⟨c, -, hc⟩ := List.mem_flatMap.1 h
  exact (not_mem_escapeTextChar c).1 hc

theorem not_mem_escapeAttributeChar (c : Char) : '"' ∉ escapeAttributeChar c := by
  unfold escapeAttributeChar
  split
  · decide
  · decide
  · next h =>
    unfold escapeTextChar
    split
    · decide
    · decide
    · decide
    · exact fun hc => h (List.mem_singleton.1 hc).symm

theorem not_mem_escapeAttribute (s : List Char) : '"' ∉ escapeAttribute s := by
  intro h
  obtain ⟨c, -, hc⟩ := List.mem_flatMap.1 h
  exact not_mem_escapeAttributeChar c hc

theorem escapeText_ne_nil {s : List Char} (h : s ≠ []) : escapeText s ≠ [] := by
  obtain ⟨c, rest, rfl⟩ := List.exists_cons_of_ne_nil h
  intro he
  have hc : escapeTextChar c = [] := (List.append_eq_nil_iff.1 he).1
  unfold escapeTextChar at hc
  split at hc <;> cases hc

end ApiEvolution.Markup
