import ApiEvolution.Proofs.Markup.Rendering

/-!
# How events are spelled

`Spelled piece e` says, without a scanner, which texts are read as one event: text between brackets,
the three kinds of marked sections, each closed by the first occurrence of its mark, a document type
with its own brackets, and tags whose quotes are closed. Reading one event takes exactly such a
piece off the text (`spelled_of_step`, `Spelled.step_eq`).

`Spells s es behind`: the text `s` is spellings of `es`, one behind the other, and then `behind`.
`Spells.lex_eq` and `exists_spells` tie it to `lex`, in both directions and for every part of a text
that is read, also before a fault.
-/

namespace ApiEvolution.Markup

/-! ## Spellings -/

/-- What can stand between the brackets of a tag: every quote is closed, and a closing bracket
stands only between quotes. -/
inductive TagText : List Char → Prop
  | nil : TagText []
  | plain {c : Char} {s : List Char} (hc : c ≠ '>' ∧ c ≠ '"' ∧ c ≠ '\'') (hs : TagText s) :
      TagText (c :: s)
  | quoted {q : Char} {body s : List Char} (hq : q = '"' ∨ q = '\'') (hb : q ∉ body)
      (hs : TagText s) : TagText (q :: (body ++ q :: s))

/-- The text closes `depth` more brackets than it opens, and each one only when it is open. -/
inductive Brackets : Nat → List Char → Prop
  | nil : Brackets 0 []
  | plain {depth : Nat} {c : Char} {s : List Char} (ho : c ≠ '<') (hc : c ≠ '>')
      (hs : Brackets depth s) : Brackets depth (c :: s)
  | opening {depth : Nat} {s : List Char} (hs : Brackets (depth + 1) s) : Brackets depth ('<' :: s)
  | closing {depth : Nat} {s : List Char} (hs : Brackets depth s) : Brackets (depth + 1) ('>' :: s)

/-- The text is the content of a tag, and not of a closing tag, an instruction or a section. -/
structure TagContent (s : List Char) : Prop where
  tagText : TagText s
  head : ∀ c ∈ s.head?, c ≠ '!' ∧ c ≠ '?' ∧ c ≠ '/'

/-- The piece of text is one event. -/
inductive Spelled : List Char → Event → Prop
  | text {s : List Char} (hne : s ≠ []) (h : '<' ∉ s) : Spelled s (.text s)
  | characterData {data : List Char} (h : ¬ "]]>".toList <:+: data) :
      Spelled ("<![CDATA[".toList ++ data ++ "]]>".toList) (.characterData data)
  | comment {body : List Char} (h : ¬ "-->".toList <:+: body) :
      Spelled ("<!--".toList ++ body ++ "-->".toList) .ignored
  | documentType {content name : List Char} (hs : afterFolded? "!doctype" content = some name)
      (hb : Brackets 0 content) (hn : name.all isSpace = false) :
      Spelled ('<' :: content ++ ['>']) .ignored
  | instruction {body : List Char} (h : ¬ "?>".toList <:+: '?' :: body) :
      Spelled ("<?".toList ++ body ++ "?>".toList) .ignored
  | closing {name : List Char} (h : TagText name) :
      Spelled ("</".toList ++ name ++ ['>']) (.closing (closingName name))
  | empty {content : List Char} (h : TagContent (content ++ ['/'])) :
      Spelled ('<' :: (content ++ ['/']) ++ ['>']) (.empty ⟨content⟩)
  | opening {content : List Char} (h : TagContent content) (hl : content.getLast? ≠ some '/') :
      Spelled ('<' :: content ++ ['>']) (.opening ⟨content⟩)

/-- The text begins with spellings of the events, one behind the other, and `behind` follows them.
Text goes on to the next bracket or the end. -/
inductive Spells : List Char → List Event → List Char → Prop
  | nil (s : List Char) : Spells s [] s
  | cons {piece rest behind : List Char} {e : Event} {es : List Event} (h : Spelled piece e)
      (hstop : e = .text piece → ∀ c ∈ rest.head?, c = '<') (hrest : Spells rest es behind) :
      Spells (piece ++ rest) (e :: es) behind

/-! ## Up to the bracket behind a mark -/

/-- What is read up to a bracket ends at the first one that is accepted. -/
theorem exists_of_upToBracket {stop : List Char → Bool} {seen s content rest : List Char}
    (h : upToBracket stop seen s = some (content, rest)) :
    ∃ t, content = seen.reverse ++ t ∧ s = t ++ '>' :: rest ∧ stop (t.reverse ++ seen) = true ∧
      ∀ u v, t = u ++ '>' :: v → stop (u.reverse ++ seen) = false := by
  induction s generalizing seen with
  | nil => cases h
  | cons c s ih =>
    rw [upToBracket] at h
    split at h
    · next hc =>
      obtain ⟨rfl, hstop⟩ := hc
      cases h
      exact ⟨[], by simp, rfl, hstop, fun u v huv => by cases u <;> cases huv⟩
    · next hc =>
      obtain ⟨t, hcontent, hs, hstop, hfirst⟩ := ih h
      refine ⟨c :: t, by simp [hcontent], by rw [hs]; rfl, by simpa using hstop, ?_⟩
      intro u v huv
      cases u with
      | nil =>
        obtain ⟨rfl, -⟩ := List.cons.inj huv
        exact Bool.eq_false_iff.2 fun hn => hc ⟨rfl, hn⟩
      | cons d u =>
        obtain ⟨rfl, rfl⟩ := List.cons.inj huv
        simpa using hfirst u v rfl

/-- The brackets before the first one that is accepted are passed over. -/
theorem upToBracket_of_first {stop : List Char → Bool} {seen t : List Char} (rest : List Char)
    (hstop : stop (t.reverse ++ seen) = true)
    (hfirst : ∀ u v, t = u ++ '>' :: v → stop (u.reverse ++ seen) = false) :
    upToBracket stop seen (t ++ '>' :: rest) = some (seen.reverse ++ t, rest) := by
  induction t generalizing seen with
  | nil =>
    rw [List.nil_append, upToBracket, if_pos ⟨rfl, hstop⟩, List.append_nil]
  | cons c t ih =>
    have hc : ¬ (c = '>' ∧ stop seen = true) := by
      rintro ⟨rfl, hn⟩
      have hseen := hfirst [] t rfl
      rw [List.reverse_nil, List.nil_append, hn] at hseen
      cases hseen
    have hrest := ih (by simpa using hstop) fun u v huv => by
      simpa using hfirst (c :: u) v (by rw [huv]; rfl)
    rw [List.cons_append, upToBracket, if_neg hc, hrest]
    simp

/-- What ends with a character that `p` lacks does not reach into `p`. -/
theorem infix_append_iff {x s p : List Char} {c : Char} (hc : c ∉ p) :
    x ++ [c] <:+: s ++ p ↔ x ++ [c] <:+: s := by
  constructor
  · rintro ⟨u, v, huv⟩
    rcases List.append_eq_append_iff.1 huv with ⟨w, hs, -⟩ | ⟨w, hw, hp⟩
    · exact ⟨u, w, hs.symm⟩
    · rcases List.eq_nil_or_concat w with rfl | ⟨w', d, rfl⟩
      · exact ⟨u, [], by simpa using hw⟩
      · rw [List.concat_eq_append, ← List.append_assoc, ← List.append_assoc] at hw
        obtain ⟨-, hd⟩ := List.append_inj' hw rfl
        cases hd
        exact absurd (by simp [hp]) hc
  · exact fun h => h.trans (List.prefix_append s p).isInfix

/-- Where `stop` looks for a mark, the text goes up to the first one with a bracket behind it. -/
theorem upToBracket_mark_iff {stop : List Char → Bool}
    {seen mark s content rest : List Char} (hm : '>' ∉ mark)
    (hstop : ∀ u, stop (u.reverse ++ seen) = true ↔ mark <:+ u) :
    upToBracket stop seen s = some (content, rest) ↔
      ∃ body, content = seen.reverse ++ (body ++ mark) ∧ s = body ++ mark ++ '>' :: rest ∧
        ¬ mark ++ ['>'] <:+: body := by
  have hfirst (t : List Char) : (∀ u v, t = u ++ '>' :: v → stop (u.reverse ++ seen) = false) ↔
      ¬ mark ++ ['>'] <:+: t := by
    constructor
    · rintro h ⟨u, v, rfl⟩
      have hu := h (u ++ mark) v (by simp)
      rw [(hstop _).2 (List.suffix_append u mark)] at hu
      cases hu
    · rintro h u v rfl
      refine Bool.eq_false_iff.2 fun hu => h ?_
      obtain ⟨w, rfl⟩ := (hstop u).1 hu
      exact ⟨w, v, by simp⟩
  constructor
  · intro h
    obtain ⟨t, hcontent, hs, ht, hf⟩ := exists_of_upToBracket h
    obtain ⟨body, rfl⟩ := (hstop t).1 ht
    exact ⟨body, hcontent, hs, (not_congr (infix_append_iff hm)).1 ((hfirst _).1 hf)⟩
  · rintro ⟨body, rfl, rfl, hb⟩
    have hmark := (hfirst (body ++ mark)).2 ((not_congr (infix_append_iff hm)).2 hb)
    exact upToBracket_of_first rest ((hstop _).2 (List.suffix_append body mark)) hmark

/-- A beginning without brackets is passed over. -/
theorem upToBracket_append {stop : List Char → Bool} {start : List Char} (h : '>' ∉ start)
    (seen s : List Char) :
    upToBracket stop seen (start ++ s) = upToBracket stop (start.reverse ++ seen) s := by
  induction start generalizing seen with
  | nil => rfl
  | cons c start ih =>
    have hc : c ≠ '>' := fun he => h (he ▸ List.mem_cons_self)
    rw [List.cons_append, upToBracket, if_neg (fun h' => hc h'.1),
      ih (fun hs => h (List.mem_cons_of_mem _ hs)), List.reverse_cons, List.append_assoc]
    rfl

/-! ## Up to the bracket that belongs to the tag -/

theorem upToMatching_eq_some_iff {depth : Nat} {seen s content rest : List Char} :
    upToMatching depth seen s = some (content, rest) ↔
      ∃ t, Brackets depth t ∧ content = seen.reverse ++ t ∧ s = t ++ '>' :: rest := by
  constructor
  · intro h
    induction s generalizing depth seen with
    | nil => cases h
    | cons c s ih =>
      unfold upToMatching at h
      split at h
      · next hc =>
        obtain ⟨t, ht, hcontent, hs⟩ := ih h
        exact ⟨c :: t, hc ▸ .opening ht, by simp [hcontent], by rw [hs]; rfl⟩
      · next ho =>
        split at h
        · next hc =>
          cases depth with
          | zero => cases h; exact ⟨[], .nil, by simp, by rw [hc]; rfl⟩
          | succ depth =>
            obtain ⟨t, ht, hcontent, hs⟩ := ih h
            exact ⟨c :: t, hc ▸ .closing ht, by simp [hcontent], by rw [hs]; rfl⟩
        · next hc =>
          obtain ⟨t, ht, hcontent, hs⟩ := ih h
          exact ⟨c :: t, .plain ho hc ht, by simp [hcontent], by rw [hs]; rfl⟩
  · rintro ⟨t, ht, rfl, rfl⟩
    induction ht generalizing seen with
    | nil => simp [upToMatching]
    | plain ho hc _ ih => simp [upToMatching, ho, hc, ih]
    | opening _ ih => simp [upToMatching, ih]
    | closing _ ih => simp [upToMatching, ih]

theorem upToUnquoted_tagText {t : List Char} (h : TagText t) (seen rest : List Char) :
    upToUnquoted none seen (t ++ '>' :: rest) = some (seen.reverse ++ t, rest) := by
  induction h generalizing seen with
  | nil => simp [upToUnquoted]
  | plain hc _ ih => simp [upToUnquoted, hc, ih]
  | @quoted q body s hq hb _ ih =>
    have hne : q ≠ '>' := by rcases hq with rfl | rfl <;> decide
    rw [List.cons_append, upToUnquoted, if_neg hne, if_pos hq, List.append_assoc,
      List.cons_append, upToUnquoted_quoted hb, ih]
    simp

/-- Up to a bracket outside quotes, also from within a quote. -/
theorem exists_tagText {quote : Option Char} {seen s content rest : List Char}
    (h : upToUnquoted quote seen s = some (content, rest)) :
    ∃ t, content = seen.reverse ++ t ∧ s = t ++ '>' :: rest ∧
      (quote = none → TagText t) ∧
        ∀ q, quote = some q → ∃ body u, q ∉ body ∧ TagText u ∧ t = body ++ q :: u := by
  induction s generalizing quote seen with
  | nil => cases h
  | cons c s ih =>
    unfold upToUnquoted at h
    cases quote with
    | none =>
      simp only at h
      split at h
      · next hc =>
        cases h
        exact ⟨[], by simp, by rw [hc]; rfl, fun _ => .nil, by rintro _ ⟨⟩⟩
      · next hc =>
        obtain ⟨t, hcontent, hs, hplain, hquoted⟩ := ih h
        refine ⟨c :: t, by simp [hcontent], by rw [hs]; rfl, fun _ => ?_, by rintro _ ⟨⟩⟩
        by_cases hq : c = '"' ∨ c = '\''
        · obtain ⟨body, u, hb, hu, rfl⟩ := hquoted c (if_pos hq)
          exact .quoted hq hb hu
        · exact .plain ⟨hc, not_or.1 hq⟩ (hplain (if_neg hq))
    | some q =>
      simp only at h
      obtain ⟨t, hcontent, hs, hplain, hquoted⟩ := ih h
      refine ⟨c :: t, by simp [hcontent], by rw [hs]; rfl, by rintro ⟨⟩, ?_⟩
      rintro _ ⟨⟩
      by_cases hc : c = q
      · exact ⟨[], t, List.not_mem_nil, hplain (if_pos hc), by rw [hc]; rfl⟩
      · obtain ⟨body, u, hb, hu, rfl⟩ := hquoted q (if_neg hc)
        exact ⟨c :: body, u, by simp [hb, Ne.symm hc], hu, rfl⟩

theorem upToUnquoted_eq_some_iff {s content rest : List Char} :
    upToUnquoted none [] s = some (content, rest) ↔
      TagText content ∧ s = content ++ '>' :: rest := by
  constructor
  · intro h
    obtain ⟨t, hcontent, hs, hplain, -⟩ := exists_tagText h
    obtain rfl : content = t := hcontent
    exact ⟨hplain rfl, hs⟩
  · rintro ⟨ht, rfl⟩
    exact upToUnquoted_tagText ht [] rest

/-! ## Sections -/

/-- Reads a section that begins with `start`. -/
def stepSection (stop : List Char → Bool) (start : List Char) (event : List Char → Event)
    (fault : SyntaxError) (s : List Char) : Step :=
  match upToBracket stop [] s with
  | some (content, rest) =>
    if start.isPrefixOf content then .event (event content) rest else .fault fault
  | none => .fault fault

/-- A section goes up to the first mark with a bracket behind it. -/
theorem stepSection_eq_event_iff {stop : List Char → Bool} {start mark s rest : List Char}
    {event : List Char → Event} {fault : SyntaxError} {e : Event} (hstart : '>' ∉ start)
    (hm : '>' ∉ mark) (hstop : ∀ u, stop (u.reverse ++ start.reverse) = true ↔ mark <:+ u) :
    stepSection stop start event fault s = .event e rest ↔
      ∃ body, ¬ mark ++ ['>'] <:+: body ∧ e = event (start ++ (body ++ mark)) ∧
        s = start ++ (body ++ mark ++ '>' :: rest) := by
  have hcontent (t content rest : List Char) :
      upToBracket stop [] (start ++ t) = some (content, rest) ↔ ∃ body,
        content = start ++ (body ++ mark) ∧ t = body ++ mark ++ '>' :: rest ∧
          ¬ mark ++ ['>'] <:+: body := by
    rw [upToBracket_append hstart, List.append_nil, upToBracket_mark_iff hm hstop,
      List.reverse_reverse]
  rw [stepSection]
  constructor
  · intro h
    split at h
    · next content rest' hu =>
      split at h
      · next hp =>
        cases h
        obtain ⟨w, rfl⟩ := List.isPrefixOf_iff_prefix.1 hp
        obtain ⟨t, ht, rfl, -⟩ := exists_of_upToBracket hu
        obtain rfl : start ++ w = t := ht
        rw [List.append_assoc] at hu ⊢
        obtain ⟨body, hbody, hw, hb⟩ := (hcontent _ _ _).1 hu
        exact ⟨body, hb, by rw [hbody], by rw [hw]⟩
      · cases h
    · cases h
  · rintro ⟨body, hb, rfl, rfl⟩
    have hp : start.isPrefixOf (start ++ (body ++ mark)) = true :=
      List.isPrefixOf_iff_prefix.2 (List.prefix_append _ _)
    rw [(hcontent _ _ _).2 ⟨body, rfl, rfl, hb⟩]
    simp only [hp, ↓reduceIte]

theorem stepBang_characterData {s rest : List Char} {e : Event} :
    stepBang ('!' :: '[' :: s) = .event e rest ↔
      ∃ data, ¬ "]]>".toList <:+: data ∧ e = .characterData data ∧
        '<' :: '!' :: '[' :: s = "<![CDATA[".toList ++ data ++ "]]>".toList ++ rest := by
  have hstop (u : List Char) : "]]".toList.isPrefixOf (u.reverse ++ "![CDATA[".toList.reverse) =
      true ↔ "]]".toList <:+ u := by
    rw [← List.reverse_prefix]
    rcases u.reverse with _ | ⟨a, _ | ⟨b, r⟩⟩ <;> simp
  have hstep : stepBang ('!' :: '[' :: s) =
      stepSection (fun seen => "]]".toList.isPrefixOf seen) "![CDATA[".toList
        (fun content => .characterData ((content.drop 8).take (content.length - 10)))
        .characterDataNotClosed ('!' :: '[' :: s) := rfl
  rw [hstep, stepSection_eq_event_iff (by decide) (by decide) hstop]
  simp

/-- The dashes that open a comment do not close it. -/
theorem stepBang_comment {s rest : List Char} {e : Event} :
    stepBang ('!' :: '-' :: s) = .event e rest ↔
      ∃ body, ¬ "-->".toList <:+: body ∧ e = .ignored ∧
        '<' :: '!' :: '-' :: s = "<!--".toList ++ body ++ "-->".toList ++ rest := by
  have hstop (u : List Char) : closesComment (u.reverse ++ "!--".toList.reverse) = true ↔
      "--".toList <:+ u := by
    rw [← List.reverse_prefix]
    rcases u.reverse with _ | ⟨a, _ | ⟨b, r⟩⟩ <;> simp [closesComment]
  have hstep : stepBang ('!' :: '-' :: s) =
      stepSection closesComment "!--".toList (fun _ => .ignored) .commentNotClosed
        ('!' :: '-' :: s) := rfl
  rw [hstep, stepSection_eq_event_iff (by decide) (by decide) hstop]
  simp

/-- The end of an instruction. -/
theorem upToBracket_instruction {s content rest : List Char} :
    upToBracket (fun seen => seen.head? == some '?') [] s = some (content, rest) ↔
      ∃ body, content = body ++ ['?'] ∧ s = body ++ ['?'] ++ '>' :: rest ∧
        ¬ "?>".toList <:+: body := by
  refine upToBracket_mark_iff (by decide) fun u => ?_
  rw [← List.reverse_prefix]
  rcases u.reverse with _ | ⟨a, r⟩
  · simp
  · simpa using eq_comm

theorem stepInstruction_eq_event_iff {s rest : List Char} {e : Event} :
    stepInstruction ('?' :: s) = .event e rest ↔
      ∃ body, ¬ "?>".toList <:+: '?' :: body ∧ e = .ignored ∧
        '<' :: '?' :: s = "<?".toList ++ body ++ "?>".toList ++ rest := by
  rw [stepInstruction]
  constructor
  · intro h
    split at h
    · next content rest' hu =>
      split at h
      · cases h
      · next hl =>
        cases h
        obtain ⟨w, rfl, hs, hw⟩ := upToBracket_instruction.1 hu
        -- the mark at the beginning is not the one at the end
        obtain ⟨c, body, rfl⟩ : ∃ c body, w = c :: body := by
          cases w with
          | nil => exact absurd (Nat.le_refl 1) hl
          | cons c body => exact ⟨c, body, rfl⟩
        cases hs
        exact ⟨body, hw, rfl, by simp⟩
    · cases h
  · rintro ⟨body, hb, rfl, hs⟩
    have hs' : '?' :: s = '?' :: body ++ ['?'] ++ '>' :: rest := by simpa using hs
    rw [upToBracket_instruction.2 ⟨'?' :: body, rfl, hs', hb⟩]
    simp

/-- The character that is `d` after folding is one of two, and only `!` gives `!`. -/
theorem eq_of_toLower {c : Char} :
    ((if c.toNat < 128 then c.toLower else c) = 'd' → c = 'D' ∨ c = 'd') ∧
      ((if c.toNat < 128 then c.toLower else c) = '!' → c = '!') := by
  have hsmall : ∀ n : Fin 128,
      ((Char.ofNat n).toLower = 'd' → Char.ofNat n = 'D' ∨ Char.ofNat n = 'd') ∧
        ((Char.ofNat n).toLower = '!' → Char.ofNat n = '!') := by decide
  split
  · next h => simpa [Char.ofNat_toNat] using hsmall ⟨c.toNat, h⟩
  · exact ⟨.inr, id⟩

/-- A document type begins with its keyword, in any case. -/
theorem exists_of_afterFolded? {content name : List Char}
    (h : afterFolded? "!doctype" content = some name) :
    ∃ c s, content = '!' :: c :: s ∧ (c = 'D' ∨ c = 'd') := by
  rw [afterFolded?] at h
  split at h
  · next hf =>
    have hword : "!doctype".toList = '!' :: 'd' :: "octype".toList := by decide
    have hlength : "!doctype".length = 6 + 1 + 1 := by decide
    rw [hword, hlength] at hf
    rcases content with _ | ⟨a, _ | ⟨c, s⟩⟩
    · simp at hf
    · simp at hf
    · simp only [List.take_succ_cons, List.map_cons, List.cons.injEq] at hf
      obtain rfl := eq_of_toLower.2 hf.1
      exact ⟨c, s, rfl, eq_of_toLower.1 hf.2.1⟩
  · cases h

/-- Reads a document type. -/
def stepDocumentType (s : List Char) : Step :=
  match upToMatching 0 [] s with
  | some (content, rest) =>
    match afterFolded? "!doctype" content with
    | some name =>
      if name.all isSpace then .fault .documentTypeWithoutName else .event .ignored rest
    | none => .fault .documentTypeNotClosed
  | none => .fault .documentTypeNotClosed

theorem stepBang_documentType {c : Char} (hc : c = 'D' ∨ c = 'd') {s rest : List Char}
    {e : Event} :
    stepBang ('!' :: c :: s) = .event e rest ↔
      ∃ content name, afterFolded? "!doctype" content = some name ∧ Brackets 0 content ∧
        name.all isSpace = false ∧ e = .ignored ∧
          '<' :: '!' :: c :: s = '<' :: content ++ ['>'] ++ rest := by
  have hstep : stepBang ('!' :: c :: s) = stepDocumentType ('!' :: c :: s) := by
    rcases hc with rfl | rfl <;> rfl
  rw [hstep, stepDocumentType]
  constructor
  · intro h
    split at h
    · next content rest' hu =>
      split at h
      · next name hname =>
        split at h
        · cases h
        · next hn =>
          cases h
          obtain ⟨t, ht, hcontent, hs⟩ := upToMatching_eq_some_iff.1 hu
          obtain rfl : content = t := hcontent
          exact ⟨content, name, hname, ht, Bool.eq_false_iff.2 hn, rfl, by rw [hs]; simp⟩
      · cases h
    · cases h
  · rintro ⟨content, name, hname, hb, hn, rfl, hs⟩
    have hs' : '!' :: c :: s = content ++ '>' :: rest := by simpa using hs
    rw [upToMatching_eq_some_iff.2 ⟨content, hb, rfl, hs'⟩]
    simp only [List.reverse_nil, List.nil_append, hname, hn, Bool.false_eq_true, ↓reduceIte]

/-- No other section is known. -/
theorem exists_of_stepBang {s rest : List Char} {e : Event}
    (h : stepBang ('!' :: s) = .event e rest) :
    ∃ c s', s = c :: s' ∧ (c = '[' ∨ c = '-' ∨ c = 'D' ∨ c = 'd') := by
  unfold stepBang at h
  split at h
  · next s' hs => exact ⟨'[', s', hs, .inl rfl⟩
  · next s' hs => exact ⟨'-', s', hs, .inr (.inl rfl)⟩
  · next s' hs => exact ⟨'D', s', hs, .inr (.inr (.inl rfl))⟩
  · next s' hs => exact ⟨'d', s', hs, .inr (.inr (.inr rfl))⟩
  · cases h

/-- Behind a bracket, and not at the beginning of a section or an instruction, stands a tag. -/
theorem spelled_of_stepTag {s rest : List Char} {e : Event} (h : stepTag s = .event e rest)
    (hs : ∀ c ∈ s.head?, c ≠ '!' ∧ c ≠ '?') :
    ∃ piece, Spelled piece e ∧ (∀ t, e ≠ .text t) ∧ '<' :: s = piece ++ rest := by
  unfold stepTag at h
  split at h
  · cases h
  · next name rest' hu =>
    cases h
    obtain ⟨ht, rfl⟩ := upToUnquoted_eq_some_iff.1 hu
    cases ht with
    | plain _ ht => exact ⟨_, .closing ht, nofun, by simp⟩
    | quoted hq => rcases hq with hq | hq <;> cases hq
  · next content rest' hne hu =>
    obtain ⟨ht, rfl⟩ := upToUnquoted_eq_some_iff.1 hu
    have hc : TagContent content := by
      refine ⟨ht, fun c hc => ?_⟩
      obtain ⟨tail, rfl⟩ := List.head?_eq_some_iff.1 hc
      obtain ⟨h1, h2⟩ := hs c rfl
      exact ⟨h1, h2, fun h3 => hne tail (by rw [h3])⟩
    split at h
    · next hl =>
      cases h
      obtain ⟨init, rfl⟩ := List.getLast?_eq_some_iff.1 hl
      rw [List.dropLast_concat]
      exact ⟨_, .empty hc, nofun, by simp⟩
    · next hl =>
      cases h
      exact ⟨_, .opening hc hl, nofun, by simp⟩

theorem stepTag_closing {name : List Char} (h : TagText name) (rest : List Char) :
    stepTag ('/' :: name ++ '>' :: rest) = .event (.closing (closingName name)) rest := by
  have ht : TagText ('/' :: name) := .plain (by decide) h
  rw [stepTag, upToUnquoted_eq_some_iff.2 ⟨ht, rfl⟩]
  rfl

theorem stepTag_of_tagContent {content : List Char} (h : TagContent content) (rest : List Char) :
    stepTag (content ++ '>' :: rest) =
      if content.getLast? = some '/' then .event (.empty ⟨content.dropLast⟩) rest
      else .event (.opening ⟨content⟩) rest := by
  rw [stepTag, upToUnquoted_eq_some_iff.2 ⟨h.tagText, rfl⟩]
  split
  · next hn => cases hn
  · next hn =>
    cases hn
    exact absurd rfl (h.head '/' rfl).2.2
  · next hn => cases hn; rfl

/-- Behind the bracket of such a content begins no section and no instruction. -/
theorem step_tagContent {content : List Char} (h : TagContent content) (rest : List Char) :
    step ('<' :: (content ++ '>' :: rest)) = stepTag (content ++ '>' :: rest) := by
  cases content with
  | nil => exact step_bracket (by decide) (by decide) rest
  | cons c s =>
    obtain ⟨h1, h2, -⟩ := h.head c rfl
    exact step_bracket h1 h2 _

/-- What was read as one event is spelled in front of what is left. -/
theorem spelled_of_step {s rest : List Char} {e : Event} (h : step s = .event e rest) :
    ∃ piece, Spelled piece e ∧ (e = .text piece → ∀ c ∈ rest.head?, c = '<') ∧
      s = piece ++ rest := by
  rcases s with _ | ⟨c, s⟩
  · cases h
  by_cases hc : c = '<'
  · subst hc
    suffices ∃ piece, Spelled piece e ∧ (∀ t, e ≠ .text t) ∧ '<' :: s = piece ++ rest by
      obtain ⟨piece, hp, ht, hs⟩ := this
      exact ⟨piece, hp, fun he => absurd he (ht piece), hs⟩
    rcases s with _ | ⟨d, s⟩
    · exact spelled_of_stepTag h nofun
    by_cases hd : d = '!'
    · subst hd
      obtain ⟨b, s', rfl, rfl | rfl | hb⟩ := exists_of_stepBang h
      · obtain ⟨data, hdata, rfl, hs⟩ := stepBang_characterData.1 h
        exact ⟨_, .characterData hdata, nofun, hs⟩
      · obtain ⟨body, hbody, rfl, hs⟩ := stepBang_comment.1 h
        exact ⟨_, .comment hbody, nofun, hs⟩
      · obtain ⟨content, name, hn, hb', hns, rfl, hs⟩ := (stepBang_documentType hb).1 h
        exact ⟨_, .documentType hn hb' hns, nofun, hs⟩
    · by_cases hq : d = '?'
      · subst hq
        obtain ⟨body, hbody, rfl, hs⟩ := stepInstruction_eq_event_iff.1 h
        exact ⟨_, .instruction hbody, nofun, hs⟩
      · rw [step_bracket hd hq] at h
        exact spelled_of_stepTag h fun c hc => by cases hc; exact ⟨hd, hq⟩
  · rw [step_of_ne hc] at h
    cases h
    refine ⟨_, .text ?_ ?_, fun _ => ?_, List.takeWhile_append_dropWhile.symm⟩
    · simp [hc]
    · intro hm
      have hall := List.all_eq_true.1 (List.all_takeWhile (p := (· != '<'))) '<' hm
      exact bne_iff_ne.1 hall rfl
    · intro d hd
      have hstop := List.head?_dropWhile_not (· != '<') (c :: s)
      rw [Option.mem_def.1 hd] at hstop
      simpa using hstop

/-- A spelling of an event is read as this event, whatever is behind it. -/
theorem Spelled.step_eq {piece rest : List Char} {e : Event} (h : Spelled piece e)
    (hstop : e = .text piece → ∀ c ∈ rest.head?, c = '<') :
    step (piece ++ rest) = .event e rest := by
  cases h with
  | text hne hb => exact step_append_of_stop hne hb (hstop rfl)
  | characterData hd =>
    rename_i data
    have hs : "<![CDATA[".toList ++ data ++ "]]>".toList ++ rest =
        '<' :: '!' :: '[' :: ("CDATA[".toList ++ data ++ "]]>".toList ++ rest) := by simp
    rw [hs]
    exact stepBang_characterData.2 ⟨_, hd, rfl, hs.symm⟩
  | comment hb =>
    rename_i body
    have hs : "<!--".toList ++ body ++ "-->".toList ++ rest =
        '<' :: '!' :: '-' :: ("-".toList ++ body ++ "-->".toList ++ rest) := by simp
    rw [hs]
    exact stepBang_comment.2 ⟨_, hb, rfl, hs.symm⟩
  | documentType hs hb hn =>
    obtain ⟨c, s, rfl, hc⟩ := exists_of_afterFolded? hs
    exact (stepBang_documentType hc).2 ⟨_, _, hs, hb, hn, rfl, rfl⟩
  | instruction hb =>
    rename_i body
    have hs : "<?".toList ++ body ++ "?>".toList ++ rest =
        '<' :: '?' :: (body ++ "?>".toList ++ rest) := by simp
    rw [hs]
    exact stepInstruction_eq_event_iff.2 ⟨_, hb, rfl, hs.symm⟩
  | closing h =>
    rename_i name
    have hs : "</".toList ++ name ++ ['>'] ++ rest = '<' :: ('/' :: name ++ '>' :: rest) := by
      simp
    rw [hs, List.cons_append, step_bracket (by decide) (by decide)]
    exact stepTag_closing h rest
  | empty h =>
    rename_i content
    have hs : '<' :: (content ++ ['/']) ++ ['>'] ++ rest =
        '<' :: ((content ++ ['/']) ++ '>' :: rest) := by simp
    rw [hs, step_tagContent h, stepTag_of_tagContent h, List.getLast?_concat, if_pos rfl,
      List.dropLast_concat]
  | opening h hl =>
    rename_i content
    have hs : '<' :: content ++ ['>'] ++ rest = '<' :: (content ++ '>' :: rest) := by simp
    rw [hs, step_tagContent h, stepTag_of_tagContent h, if_neg hl]

/-! ## Sequences of events -/

/-- What spells events is read as these events. -/
theorem Spells.lex_eq {s behind : List Char} {es : List Event} (h : Spells s es behind) :
    lex s = .prepend es (lex behind) := by
  induction h with
  | nil => rfl
  | cons hp hstop _ ih =>
    rw [lex_of_step (hp.step_eq hstop), ih, Events.prepend_cons]

/-- The events that a text begins with are spelled at its beginning, whatever is behind them. -/
theorem exists_spells {s : List Char} {es : List Event} {tail : Events}
    (h : lex s = .prepend es tail) : ∃ behind, Spells s es behind ∧ tail = lex behind := by
  induction es generalizing s with
  | nil => exact ⟨s, .nil s, h.symm⟩
  | cons e es ih =>
    rw [lex] at h
    split at h
    · cases h
    · cases h
    · next e' rest hs =>
      obtain ⟨rfl, hrest⟩ := Events.next.inj (h.trans (Events.prepend_cons e es tail))
      obtain ⟨piece, hp, hstop, rfl⟩ := spelled_of_step hs
      obtain ⟨behind, hb, htail⟩ := ih hrest
      exact ⟨behind, .cons hp hstop hb, htail⟩

theorem Spelled.ne_nil {piece : List Char} {e : Event} (h : Spelled piece e) : piece ≠ [] := by
  cases h with
  | text hne => exact hne
  | _ => simp

theorem Spells.ne_nil {s behind : List Char} {es : List Event} (h : Spells s es behind)
    (hne : es ≠ []) : s ≠ [] := by
  cases h with
  | nil => exact absurd rfl hne
  | cons hp => simp [hp.ne_nil]

/-- What is spelled stays so when more text follows, unless it ends with text. -/
theorem Spells.append {s behind : List Char} {es : List Event} (h : Spells s es behind)
    (hlast : ∀ t, es.getLast? ≠ some (.text t)) (more : List Char) :
    Spells (s ++ more) es (behind ++ more) := by
  induction h with
  | nil s => exact .nil (s ++ more)
  | @cons piece rest behind e es hp hstop hrest ih =>
    rw [List.append_assoc]
    by_cases hes : es = []
    · subst hes
      cases hrest
      exact .cons hp (fun he => absurd (by rw [he]; rfl) (hlast piece)) (.nil (rest ++ more))
    · refine .cons hp (fun he c hc => hstop he c ?_) (ih fun t => ?_)
      · obtain ⟨d, tail, rfl⟩ := List.exists_cons_of_ne_nil (hrest.ne_nil hes)
        exact hc
      · rw [← List.getLast?_cons_of_ne_nil hes]
        exact hlast t

end ApiEvolution.Markup
