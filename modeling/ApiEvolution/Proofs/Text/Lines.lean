import ApiEvolution.Text.Blank
import ApiEvolution.Text.Pieces

/-!
# Lines and what they hold

Blanks around a text do not count when it is trimmed (`trim_pad`), and a text stays as it is if it
has none (`trim_eq_self_iff`). Lines that are put one after the
other with line feeds between them are found again (`pieces_join`), but for the carriage returns
before the line feeds and an empty line at the end (`lines_eq`); these have no part in what the
lines hold without the blanks around it (`held_lines_join`). The lines of two texts, of which the
first one ends with a line feed, are the lines of the one and then those of the other
(`lines_append`).
-/

namespace ApiEvolution.Text

/-! ## Blanks around a text -/

/-- The text has nothing but blanks. -/
def Blank (s : List Char) : Prop :=
  ∀ c ∈ s, isBlank c

instance : DecidablePred Blank := fun _ =>
  decidable_of_iff _ List.all_eq_true

theorem trimStart_append_of_blank {s : List Char} (h : Blank s) (t : List Char) :
    trimStart (s ++ t) = trimStart t :=
  List.dropWhile_append_of_pos h

theorem trimStart_of_blank {s : List Char} (h : Blank s) : trimStart s = [] := by
  have := trimStart_append_of_blank h []
  rwa [List.append_nil] at this

theorem trimEnd_append_of_blank {t : List Char} (h : Blank t) (s : List Char) :
    trimEnd (s ++ t) = trimEnd s := by
  unfold trimEnd
  rw [List.reverse_append, List.dropWhile_append_of_pos fun c hc => h c (List.mem_reverse.1 hc)]

theorem trim_append_of_blank {t : List Char} (h : Blank t) (s : List Char) :
    trim (s ++ t) = trim s := by
  unfold trim
  by_cases hs : trimStart s = []
  · have hst : trimStart (s ++ t) = trimStart t := by
      unfold trimStart at hs ⊢
      rw [List.dropWhile_append, hs]
      rfl
    rw [hst, hs, trimStart_of_blank h]
  · have hst : trimStart (s ++ t) = trimStart s ++ t := by
      unfold trimStart at hs ⊢
      rw [List.dropWhile_append, if_neg (by simpa using hs)]
    rw [hst, trimEnd_append_of_blank h]

/-- Blanks before and behind a text are trimmed away. -/
theorem trim_pad {before after : List Char} (hbefore : Blank before) (hafter : Blank after)
    (s : List Char) : trim (before ++ s ++ after) = trim s := by
  rw [trim_append_of_blank hafter, trim, trimStart_append_of_blank hbefore, trim]

theorem trim_of_blank {s : List Char} (h : Blank s) : trim s = [] := by
  have := trim_append_of_blank h []
  rwa [List.nil_append] at this

/-- A text without blanks stays as it is. -/
theorem trim_of_forall_not_blank {s : List Char} (h : ∀ c ∈ s, isBlank c = false) : trim s = s := by
  have hdrop {t : List Char} (ht : ∀ c ∈ t, isBlank c = false) : t.dropWhile isBlank = t := by
    cases t with
    | nil => rfl
    | cons c t => rw [List.dropWhile_cons_of_neg (by simp [ht c List.mem_cons_self])]
  rw [trim, trimStart, hdrop h, trimEnd, hdrop fun c hc => h c (List.mem_reverse.1 hc),
    List.reverse_reverse]

theorem trim_dropReturn (line : List Char) : trim (dropReturn line) = trim line := by
  unfold dropReturn
  split
  · next h =>
    obtain ⟨front, rfl⟩ := List.getLast?_eq_some_iff.1 h
    have hreturn : Blank ['\r'] := by simp [Blank, isBlank, blankRanges]
    rw [List.dropLast_concat, trim_append_of_blank hreturn]
  · rfl

/-! ## Texts with nothing to trim -/

theorem trimEnd_isPrefix (s : List Char) : trimEnd s <+: s := by
  have h := List.dropWhile_suffix (l := s.reverse) isBlank
  rw [← List.reverse_prefix, List.reverse_reverse] at h
  exact h

theorem mem_of_mem_trim {c : Char} {s : List Char} (h : c ∈ trim s) : c ∈ s :=
  (List.dropWhile_suffix isBlank).mem ((trimEnd_isPrefix _).mem h)

theorem trimStart_eq_self_iff {s : List Char} :
    trimStart s = s ↔ ∀ c, s.head? = some c → isBlank c = false := by
  constructor
  · intro h c hc
    exact head?_trimStart s c (h.symm ▸ hc)
  · intro h
    cases s with
    | nil => rfl
    | cons c s => exact List.dropWhile_cons_of_neg (by simp [h c rfl])

theorem trimEnd_eq_self_iff {s : List Char} :
    trimEnd s = s ↔ ∀ c, s.getLast? = some c → isBlank c = false := by
  have h : trimEnd s = (trimStart s.reverse).reverse := rfl
  rw [h, List.reverse_eq_iff, trimStart_eq_self_iff, List.head?_reverse]

theorem trimEnd_trimEnd (s : List Char) : trimEnd (trimEnd s) = trimEnd s := by
  rw [trimEnd_eq_self_iff]
  intro c hc
  rw [trimEnd, List.getLast?_reverse] at hc
  exact head?_trimStart s.reverse c hc

theorem trimStart_trim (s : List Char) : trimStart (trim s) = trim s := by
  rw [trimStart_eq_self_iff]
  intro c hc
  obtain ⟨rest, hrest⟩ := trimEnd_isPrefix (trimStart s)
  refine head?_trimStart s c ?_
  rw [← hrest, List.head?_append, ← trim, hc, Option.some_or]

theorem trim_trim (s : List Char) : trim (trim s) = trim s := by
  rw [trim, trimStart_trim, trim, trimEnd_trimEnd]

theorem trimEnd_of_trim {s : List Char} (h : trim s = s) : trimEnd s = s := by
  rw [← h, trim, trimEnd_trimEnd]

theorem trim_eq_self_iff {s : List Char} : trim s = s ↔ trimStart s = s ∧ trimEnd s = s := by
  constructor
  · intro h
    rw [← h]
    exact ⟨trimStart_trim s, trimEnd_trimEnd _⟩
  · rintro ⟨hstart, hend⟩
    rw [trim, hstart, hend]

/-- A text that is not empty keeps its blanks within when another one follows it. -/
theorem trim_append {s t : List Char} (hs : trim s = s) (hne : s ≠ []) (ht : trimEnd t = t) :
    trim (s ++ t) = s ++ t := by
  obtain ⟨hstart, hend⟩ := trim_eq_self_iff.1 hs
  rw [trimStart_eq_self_iff] at hstart
  rw [trimEnd_eq_self_iff] at hend ht
  rw [trim_eq_self_iff, trimStart_eq_self_iff, trimEnd_eq_self_iff]
  constructor
  · obtain ⟨x, rest, rfl⟩ := List.exists_cons_of_ne_nil hne
    exact hstart
  · intro c hc
    rw [List.getLast?_append, Option.or_eq_some_iff] at hc
    rcases hc with hc | ⟨-, hc⟩
    · exact ht c hc
    · exact hend c hc

/-- The end of a text that has a part behind it is the end of that part. -/
theorem trimEnd_eq_self_of_append {s t : List Char} (h : trimEnd (s ++ t) = s ++ t) :
    trimEnd t = t := by
  rw [trimEnd_eq_self_iff] at h ⊢
  intro c hc
  exact h c (by rw [List.getLast?_append, hc, Option.some_or])

/-! ## Pieces -/

theorem pieces_cons_self (sep : Char) (s : List Char) :
    pieces sep (sep :: s) = [] :: pieces sep s := by
  rw [pieces, if_pos rfl]

theorem pieces_cons_of_ne {sep c : Char} (hc : c ≠ sep) {s p : List Char} {ps : List (List Char)}
    (h : pieces sep s = p :: ps) : pieces sep (c :: s) = (c :: p) :: ps := by
  rw [pieces, if_neg hc, h]

theorem pieces_append (sep : Char) (s t : List Char) :
    pieces sep (s ++ sep :: t) = pieces sep s ++ pieces sep t := by
  induction s with
  | nil => exact pieces_cons_self sep t
  | cons c s ih =>
    rw [List.cons_append]
    by_cases hc : c = sep
    · rw [hc, pieces_cons_self, pieces_cons_self, ih, List.cons_append]
    · obtain ⟨p, ps, hp⟩ := List.exists_cons_of_ne_nil (pieces_ne_nil sep s)
      rw [hp, List.cons_append] at ih
      rw [pieces_cons_of_ne hc ih, pieces_cons_of_ne hc hp, List.cons_append]

theorem pieces_of_not_mem {sep : Char} {s : List Char} (h : sep ∉ s) : pieces sep s = [s] := by
  induction s with
  | nil => rfl
  | cons c s ih =>
    rw [List.mem_cons, not_or] at h
    exact pieces_cons_of_ne (Ne.symm h.1) (ih h.2)

/-- Cutting undoes joining. -/
theorem pieces_join {sep : Char} {ps : List (List Char)} (hne : ps ≠ [])
    (h : ∀ p ∈ ps, sep ∉ p) : pieces sep (join [sep] ps) = ps := by
  induction ps with
  | nil => exact absurd rfl hne
  | cons p ps ih =>
    obtain ⟨hp, hps⟩ := List.forall_mem_cons.1 h
    cases ps with
    | nil => exact pieces_of_not_mem hp
    | cons q qs =>
      have hrest := ih (by simp) hps
      rw [join, List.append_assoc, List.singleton_append, pieces_append, hrest, pieces_of_not_mem hp]
      rfl

theorem join_eq_intercalate (sep : List Char) (ps : List (List Char)) :
    join sep ps = sep.intercalate ps := by
  induction ps with
  | nil => rfl
  | cons p ps ih =>
    cases ps with
    | nil => simp [join]
    | cons q qs => simp [join, ih]

theorem toList_joined (sep : String) (parts : List String) :
    (joined sep parts).toList = join sep.toList (parts.map String.toList) := by
  rw [joined, String.toList_intercalate, join_eq_intercalate]

theorem mem_of_mem_join {sep : List Char} {ps : List (List Char)} {c : Char}
    (h : c ∈ join sep ps) : c ∈ sep ∨ ∃ p ∈ ps, c ∈ p := by
  induction ps with
  | nil => cases h
  | cons p ps ih =>
    cases ps with
    | nil => exact .inr ⟨p, List.mem_cons_self, h⟩
    | cons q qs =>
      rw [join, List.mem_append, List.mem_append] at h
      obtain (hp | hsep) | hrest := h
      · exact .inr ⟨p, List.mem_cons_self, hp⟩
      · exact .inl hsep
      · rcases ih hrest with hsep | ⟨p', hp', hmem⟩
        · exact .inl hsep
        · exact .inr ⟨p', List.mem_cons_of_mem p hp', hmem⟩

/-! ## Lines -/

/-- The lines are the pieces between line feeds, the last one only if it is not empty. -/
theorem lines_eq {s : List Char} {done : List (List Char)} {last : List Char}
    (h : pieces '\n' s = done ++ [last]) :
    lines s = done.map dropReturn ++ if last = [] then [] else [last] := by
  unfold lines
  rw [h, List.reverse_append, List.reverse_singleton, List.singleton_append]
  simp only [List.map_reverse, List.reverse_reverse]

theorem exists_pieces (s : List Char) : ∃ done last, pieces '\n' s = done ++ [last] :=
  ⟨_, _, (List.dropLast_concat_getLast (pieces_ne_nil '\n' s)).symm⟩

/-- The lines of two texts, of which the first one ends with a line feed. -/
theorem lines_append (s t : List Char) : lines (s ++ '\n' :: t) = lines (s ++ ['\n']) ++ lines t := by
  obtain ⟨done, last, ht⟩ := exists_pieces t
  have hfirst : pieces '\n' (s ++ ['\n']) = pieces '\n' s ++ [[]] := pieces_append '\n' s []
  have hboth : pieces '\n' (s ++ '\n' :: t) = pieces '\n' s ++ done ++ [last] := by
    rw [pieces_append, ht, List.append_assoc]
  rw [lines_eq ht, lines_eq hfirst, lines_eq hboth]
  simp

/-! ## What lines hold -/

/-- What the lines hold: the blanks around it do not count, nor do blank lines. -/
def held (ls : List (List Char)) : List String :=
  ((ls.map trim).filter (· ≠ [])).map String.ofList

theorem held_append (ls ls' : List (List Char)) : held (ls ++ ls') = held ls ++ held ls' := by
  simp [held]

theorem held_cons (l : List Char) (ls : List (List Char)) :
    held (l :: ls) = held [l] ++ held ls :=
  held_append [l] ls

theorem held_map_dropReturn (ls : List (List Char)) : held (ls.map dropReturn) = held ls := by
  simp [held, Function.comp_def, trim_dropReturn]

theorem held_of_blank {l : List Char} (h : Blank l) : held [l] = [] := by
  simp [held, trim_of_blank h]

/-- Line feeds between lines do not change what the lines hold. -/
theorem held_lines_join {ls : List (List Char)} (h : ∀ l ∈ ls, '\n' ∉ l) :
    held (lines (join ['\n'] ls)) = held ls := by
  rcases List.eq_nil_or_concat ls with rfl | ⟨done, last, rfl⟩
  · rfl
  · rw [List.concat_eq_append] at h ⊢
    rw [lines_eq (pieces_join (by simp) h), held_append, held_append, held_map_dropReturn]
    split
    · next hlast => rw [hlast]; rfl
    · rfl

end ApiEvolution.Text
