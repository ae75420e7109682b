/-!
# Cutting texts at a character

`pieces sep s` is the list of the stretches of `s` between its separators; `join` puts the
separators back (`join_pieces`). `lines` are the stretches between line ends, of which the last one
is a line only if it is not empty.
-/

namespace ApiEvolution.Text

/-- The stretches between the occurrences of `sep`; one more than there are separators. -/
def pieces (sep : Char) : List Char → List (List Char)
  | [] => [[]]
  | c :: rest =>
    if c = sep then
      [] :: pieces sep rest
    else
      match pieces sep rest with
      | [] => [[c]]
      | p :: ps => (c :: p) :: ps

/-- The stretches with `sep` between them. -/
def join (sep : List Char) : List (List Char) → List Char
  | [] => []
  | [p] => p
  | p :: q :: ps => p ++ sep ++ join sep (q :: ps)

/-- A carriage return at the end of a line belongs to the line end. -/
def dropReturn (line : List Char) : List Char :=
  if line.getLast? = some '\r' then line.dropLast else line

/-- The lines of a text: each ends at a line feed, with or without a carriage return before it, or
at the end of the text. -/
def lines (s : List Char) : List (List Char) :=
  match (pieces '\n' s).reverse with
  | [] => []
  | last :: done => (done.map dropReturn).reverse ++ (if last = [] then [] else [last])

/-- The given strings with `sep` between them. -/
def joined (sep : String) (parts : List String) : String :=
  String.intercalate sep parts

/-! ## Laws -/

theorem pieces_ne_nil (sep : Char) (s : List Char) : pieces sep s ≠ [] := by
  cases s with
  | nil => simp [pieces]
  | cons c rest =>
    unfold pieces
    split
    · simp
    · split <;> simp

theorem join_pieces (sep : Char) (s : List Char) : join [sep] (pieces sep s) = s := by
  induction s with
  | nil => rfl
  | cons c rest ih =>
    unfold pieces
    split
    · next h =>
      obtain ⟨p, ps, hp⟩ := List.exists_cons_of_ne_nil (pieces_ne_nil sep rest)
      rw [hp] at ih ⊢
      simp [join, ih, h]
    · split
      · next hp => exact absurd hp (pieces_ne_nil sep rest)
      · next p ps hp =>
        rw [hp] at ih
        cases ps with
        | nil => simpa [join] using ih
        | cons q qs => simpa [join] using ih

theorem not_mem_of_mem_pieces {sep : Char} {s p : List Char} (h : p ∈ pieces sep s) : sep ∉ p := by
  induction s generalizing p with
  | nil => simp_all [pieces]
  | cons c rest ih =>
    unfold pieces at h
    split at h
    · rcases List.mem_cons.1 h with rfl | h
      · simp
      · exact ih h
    · next hc =>
      split at h
      · simp only [List.mem_singleton] at h
        simpa [h] using fun e => hc (Eq.symm e)
      · next q qs hq =>
        rcases List.mem_cons.1 h with rfl | h
        · have := ih (p := q) (by simp [hq])
          simp only [List.mem_cons, not_or]
          exact ⟨fun e => hc e.symm, this⟩
        · exact ih (by simp [hq, h])

end ApiEvolution.Text
