import ApiEvolution.Markup.Attribute
import ApiEvolution.Markup.Tree
import ApiEvolution.Proofs.Markup.Escaping

/-!
# The events of a written tree

`lex_render`: a tree that is written out is read as the events one expects of it, `Tree.events`:
layout before every element, the text of a leaf as it was escaped, and each opening tag answered by
its closing one, so that nesting is never at fault (`checkNesting_events`). `attribute?_render`: the
attributes of a written tag have the values they were written with.

All this is for trees whose names are letters only (`Tree.Named`); attribute values and texts are
arbitrary.
-/

namespace ApiEvolution.Markup

/-! ## Names -/

/-- A name of an element or attribute: letters, at least one. -/
def IsName (s : List Char) : Prop :=
  s ≠ [] ∧ ∀ c ∈ s, c.isAlpha = true

theorem all_isAlpha_iff {s : List Char} : s ≠ [] ∧ s.all Char.isAlpha ↔ IsName s := by
  rw [List.all_eq_true, IsName]

instance : DecidablePred IsName := fun _ => decidable_of_decidable_of_iff all_isAlpha_iff

/-- A letter is none of the characters with a meaning in a tag. -/
theorem isAlpha_ne {c d : Char} (h : c.isAlpha = true) (hd : d.isAlpha = false) : c ≠ d := by
  rintro rfl
  rw [h] at hd
  cases hd

theorem isSpace_of_isAlpha {c : Char} (h : c.isAlpha = true) : isSpace c = false := by
  simp only [isSpace, Bool.or_eq_false_iff, beq_eq_false_iff_ne]
  exact ⟨⟨⟨isAlpha_ne h rfl, isAlpha_ne h rfl⟩, isAlpha_ne h rfl⟩, isAlpha_ne h rfl⟩

mutual

/-- All names of elements and attributes in the tree are letters. -/
def Tree.Named : Tree → Prop
  | .branch name attributes children =>
    IsName name.toList ∧ (∀ a ∈ attributes, IsName a.1.toList) ∧ Tree.NamedAll children
  | .leaf name _ => IsName name.toList

def Tree.NamedAll : List Tree → Prop
  | [] => True
  | t :: rest => t.Named ∧ Tree.NamedAll rest

end

/-! ## Tags -/

theorem upToUnquoted_plain {s : List Char} (h : ∀ c ∈ s, c ≠ '>' ∧ c ≠ '"' ∧ c ≠ '\'')
    (seen rest : List Char) :
    upToUnquoted none seen (s ++ rest) = upToUnquoted none (s.reverse ++ seen) rest := by
  induction s generalizing seen with
  | nil => rfl
  | cons c s ih =>
    obtain ⟨h1, h2, h3⟩ := h c List.mem_cons_self
    have ih' := ih (fun d hd => h d (List.mem_cons_of_mem _ hd)) (c :: seen)
    simp [upToUnquoted, h1, h2, h3, ih']

theorem upToUnquoted_quoted {q : Char} {s : List Char} (h : q ∉ s) (seen rest : List Char) :
    upToUnquoted (some q) seen (s ++ q :: rest) =
      upToUnquoted none (q :: (s.reverse ++ seen)) rest := by
  induction s generalizing seen with
  | nil => simp [upToUnquoted]
  | cons c s ih =>
    have hc : c ≠ q := fun he => h (he ▸ List.mem_cons_self)
    have ih' := ih (fun hd => h (List.mem_cons_of_mem _ hd)) (c :: seen)
    simp [upToUnquoted, hc, ih']

theorem IsName.plain {s : List Char} (h : IsName s) : ∀ c ∈ s, c ≠ '>' ∧ c ≠ '"' ∧ c ≠ '\'' :=
  fun c hc => ⟨isAlpha_ne (h.2 c hc) rfl, isAlpha_ne (h.2 c hc) rfl, isAlpha_ne (h.2 c hc) rfl⟩

/-- One attribute as it is written. -/
def renderAttribute (a : String × String) : List Char :=
  ' ' :: a.1.toList ++ "=\"".toList ++ escapeAttribute a.2.toList ++ ['"']

theorem renderAttributes_cons (a : String × String) (as : List (String × String)) :
    renderAttributes (a :: as) = renderAttribute a ++ renderAttributes as := rfl

theorem upToUnquoted_attribute {a : String × String} (h : IsName a.1.toList)
    (seen rest : List Char) :
    upToUnquoted none seen (renderAttribute a ++ rest) =
      upToUnquoted none ((renderAttribute a).reverse ++ seen) rest := by
  have hkey := upToUnquoted_plain h.plain (' ' :: seen)
    ('=' :: '"' :: (escapeAttribute a.2.toList ++ '"' :: rest))
  have hvalue := upToUnquoted_quoted (not_mem_escapeAttribute a.2.toList)
    ('"' :: '=' :: (a.1.toList.reverse ++ ' ' :: seen)) rest
  have heq : renderAttribute a ++ rest =
      ' ' :: (a.1.toList ++ '=' :: '"' :: (escapeAttribute a.2.toList ++ '"' :: rest)) := by
    simp [renderAttribute]
  have hrev : (renderAttribute a).reverse ++ seen =
      '"' :: ((escapeAttribute a.2.toList).reverse ++
        '"' :: '=' :: (a.1.toList.reverse ++ ' ' :: seen)) := by
    simp [renderAttribute]
  rw [heq, hrev, ← hvalue]
  simp [upToUnquoted, hkey]

theorem upToUnquoted_attributes {as : List (String × String)} (h : ∀ a ∈ as, IsName a.1.toList)
    (seen rest : List Char) :
    upToUnquoted none seen (renderAttributes as ++ rest) =
      upToUnquoted none ((renderAttributes as).reverse ++ seen) rest := by
  induction as generalizing seen with
  | nil => rfl
  | cons a as ih =>
    rw [renderAttributes_cons, List.append_assoc,
      upToUnquoted_attribute (h a List.mem_cons_self),
      ih (fun b hb => h b (List.mem_cons_of_mem _ hb)), List.reverse_append, List.append_assoc]

/-- What stands between the brackets of the opening tag of an element. -/
def tagOf (name : String) (attributes : List (String × String)) : Tag :=
  ⟨name.toList ++ renderAttributes attributes⟩

theorem upToUnquoted_tagOf {name : String} {as : List (String × String)} (hn : IsName name.toList)
    (ha : ∀ a ∈ as, IsName a.1.toList) (rest : List Char) :
    upToUnquoted none [] ((tagOf name as).content ++ rest) =
      upToUnquoted none (tagOf name as).content.reverse rest := by
  simp only [tagOf, List.append_assoc, upToUnquoted_plain hn.plain, upToUnquoted_attributes ha,
    List.append_nil, List.reverse_append]

/-- The content of a tag begins with a letter. -/
theorem tagOf_cons {name : String} (hn : IsName name.toList) (as : List (String × String)) :
    ∃ c rest, (tagOf name as).content = c :: rest ∧ c.isAlpha = true := by
  obtain ⟨c, rest, hc⟩ := List.exists_cons_of_ne_nil hn.1
  exact ⟨c, rest ++ renderAttributes as, by simp [tagOf, hc], hn.2 c (by simp [hc])⟩

/-- The content of an opening tag does not end with a slash. -/
theorem tagOf_getLast? {name : String} (hn : IsName name.toList) (as : List (String × String)) :
    (tagOf name as).content.getLast? ≠ some '/' := by
  rcases List.eq_nil_or_concat as with rfl | ⟨init, a, rfl⟩
  · intro h
    have hm := List.mem_of_getLast? h
    simp only [tagOf, renderAttributes, List.flatMap_nil, List.append_nil] at hm
    exact isAlpha_ne (hn.2 _ hm) rfl rfl
  · have hc : (tagOf name (init ++ [a])).content = (name.toList ++ renderAttributes init ++
        ' ' :: a.1.toList ++ "=\"".toList ++ escapeAttribute a.2.toList) ++ ['"'] := by
      simp [tagOf, renderAttributes]
    rw [List.concat_eq_append, hc, List.getLast?_concat]
    decide

theorem tagOf_name {name : String} (hn : IsName name.toList) (as : List (String × String)) :
    (tagOf name as).name = name.toList := by
  have hp : ∀ c ∈ name.toList, (!isSpace c) = true := fun c hc => by
    rw [isSpace_of_isAlpha (hn.2 c hc)]; rfl
  rw [Tag.name, tagOf, List.takeWhile_append_of_pos hp]
  cases as with
  | nil => simp [renderAttributes]
  | cons a as => simp [renderAttributes_cons, renderAttribute, isSpace]

theorem closingName_of_isName {s : List Char} (h : IsName s) : closingName s = s := by
  have hne : s.reverse ≠ [] := by simpa using h.1
  obtain ⟨c, rest, hc⟩ := List.exists_cons_of_ne_nil hne
  have hs : isSpace c = false := isSpace_of_isAlpha (h.2 c (by
    rw [← List.mem_reverse, hc]; exact List.mem_cons_self))
  simp only [closingName, hc, List.dropWhile_cons, hs, Bool.false_eq_true, ↓reduceIte]
  rw [← hc, List.reverse_reverse]

/-! ## Single events -/

theorem step_bracket {c : Char} (h1 : c ≠ '!') (h2 : c ≠ '?') (s : List Char) :
    step ('<' :: c :: s) = stepTag (c :: s) := by
  unfold step
  split
  · next h => cases h
  · next h =>
    cases h
    split
    · next h => cases h; exact absurd rfl h1
    · next h => cases h; exact absurd rfl h2
    · rfl
  · next h => exact absurd rfl (h _)

theorem step_opening {name : String} {as : List (String × String)} (hn : IsName name.toList)
    (ha : ∀ a ∈ as, IsName a.1.toList) (rest : List Char) :
    step ('<' :: (tagOf name as).content ++ '>' :: rest) =
      .event (.opening (tagOf name as)) rest := by
  obtain ⟨c, tail, hc, hl⟩ := tagOf_cons hn as
  have hu : upToUnquoted none [] ((tagOf name as).content ++ '>' :: rest) =
      some ((tagOf name as).content, rest) := by
    rw [upToUnquoted_tagOf hn ha]; simp [upToUnquoted]
  have hlast := tagOf_getLast? hn as
  rw [hc] at hu hlast ⊢
  rw [List.cons_append, List.cons_append,
    step_bracket (isAlpha_ne hl rfl) (isAlpha_ne hl rfl), stepTag, ← List.cons_append, hu]
  split
  · next h => cases h
  · next h => cases h; exact absurd hl (by decide)
  · next h => cases h; rw [if_neg hlast, ← hc]

theorem step_empty {name : String} {as : List (String × String)} (hn : IsName name.toList)
    (ha : ∀ a ∈ as, IsName a.1.toList) (rest : List Char) :
    step ('<' :: (tagOf name as).content ++ '/' :: '>' :: rest) =
      .event (.empty (tagOf name as)) rest := by
  obtain ⟨c, tail, hc, hl⟩ := tagOf_cons hn as
  have hu : upToUnquoted none [] ((tagOf name as).content ++ '/' :: '>' :: rest) =
      some ((tagOf name as).content ++ ['/'], rest) := by
    rw [upToUnquoted_tagOf hn ha]; simp [upToUnquoted]
  have htag : tagOf name as = ⟨c :: tail⟩ := by rw [← hc]
  rw [hc] at hu ⊢
  rw [List.cons_append, List.cons_append,
    step_bracket (isAlpha_ne hl rfl) (isAlpha_ne hl rfl), stepTag, ← List.cons_append, hu]
  split
  · next h => cases h
  · next h => cases h; exact absurd hl (by decide)
  · next h => cases h; rw [List.getLast?_concat, if_pos rfl, List.dropLast_concat, htag]

theorem step_closing {name : List Char} (hn : IsName name) (rest : List Char) :
    step ('<' :: '/' :: name ++ '>' :: rest) = .event (.closing name) rest := by
  have hu : upToUnquoted none [] ('/' :: name ++ '>' :: rest) = some ('/' :: name, rest) := by
    have h := upToUnquoted_plain hn.plain ['/'] ('>' :: rest)
    simp only [List.cons_append, upToUnquoted] at h ⊢
    simp [h]
  rw [List.cons_append, List.cons_append, step_bracket (by decide) (by decide), stepTag,
    ← List.cons_append, hu]
  simp [closingName_of_isName hn]

theorem step_of_ne {c : Char} (h : c ≠ '<') (s : List Char) :
    step (c :: s) =
      .event (.text ((c :: s).takeWhile (· != '<'))) ((c :: s).dropWhile (· != '<')) := by
  unfold step
  split
  · next hs => cases hs
  · next hs => cases hs; exact absurd rfl h
  · rfl

/-- Text that goes on to the next bracket or the end is read as a whole. -/
theorem step_append_of_stop {s rest : List Char} (hne : s ≠ []) (h : '<' ∉ s)
    (hstop : ∀ c ∈ rest.head?, c = '<') : step (s ++ rest) = .event (.text s) rest := by
  rcases s with _ | ⟨c, s⟩
  · exact absurd rfl hne
  have hc : c ≠ '<' := fun he => h (he ▸ List.mem_cons_self)
  have hall : ∀ d ∈ c :: s, (d != '<') = true := fun d hd =>
    bne_iff_ne.2 fun he => h (he ▸ hd)
  have hnone : rest.takeWhile (· != '<') = [] ∧ rest.dropWhile (· != '<') = rest := by
    rcases rest with _ | ⟨d, rest⟩
    · exact ⟨rfl, rfl⟩
    · obtain rfl := hstop d rfl
      exact ⟨rfl, rfl⟩
  rw [List.cons_append, step_of_ne hc, ← List.cons_append, List.takeWhile_append_of_pos hall,
    List.dropWhile_append_of_pos hall, hnone.1, hnone.2, List.append_nil]

/-- Text reaches up to the next bracket. -/
theorem step_text {s : List Char} (hne : s ≠ []) (h : '<' ∉ s) (rest : List Char) :
    step (s ++ '<' :: rest) = .event (.text s) ('<' :: rest) :=
  step_append_of_stop hne h fun c hc => by cases hc; rfl

/-! ## All events of a tree -/

/-- The events `es`, and then those of `rest`. -/
def Events.prepend (es : List Event) (rest : Events) : Events :=
  es.foldr Events.next rest

@[simp] theorem Events.prepend_nil (rest : Events) : Events.prepend [] rest = rest := rfl

@[simp] theorem Events.prepend_cons (e : Event) (es : List Event) (rest : Events) :
    Events.prepend (e :: es) rest = .next e (Events.prepend es rest) := rfl

@[simp] theorem Events.prepend_append (es fs : List Event) (rest : Events) :
    Events.prepend (es ++ fs) rest = Events.prepend es (Events.prepend fs rest) :=
  List.foldr_append

/-- The event of the layout in front of an element. -/
def layoutEvent (depth : Nat) : Event :=
  .text (newline depth)

mutual

/-- The events of an element that is written at the given depth. -/
def Tree.events (depth : Nat) : Tree → List Event
  | .branch name attributes [] => [.empty (tagOf name attributes)]
  | .branch name attributes (child :: children) =>
    .opening (tagOf name attributes) :: layoutEvent (depth + 1) ::
      (child.events (depth + 1) ++ Tree.eventsAll (depth + 1) children) ++
        [layoutEvent depth, .closing name.toList]
  | .leaf name text =>
    if text.isEmpty then [.empty (tagOf name [])]
    else [.opening (tagOf name []), .text (escapeText text.toList), .closing name.toList]

/-- The events of elements of one depth, each with the layout in front of it. -/
def Tree.eventsAll (depth : Nat) : List Tree → List Event
  | [] => []
  | t :: rest => layoutEvent depth :: t.events depth ++ Tree.eventsAll depth rest

end

/-- An element with children: its tags around theirs. -/
theorem Tree.events_branch (depth : Nat) (name : String) (as : List (String × String))
    {children : List Tree} (h : children ≠ []) :
    (Tree.branch name as children).events depth =
      .opening (tagOf name as) :: Tree.eventsAll (depth + 1) children ++
        [layoutEvent depth, .closing name.toList] := by
  obtain ⟨child, rest, rfl⟩ := List.exists_cons_of_ne_nil h
  simp [Tree.events, Tree.eventsAll]

theorem lex_of_step {s rest : List Char} {e : Event} (h : step s = .event e rest) :
    lex s = .next e (lex rest) := by
  rw [lex]
  split
  · next h' => rw [h] at h'; cases h'
  · next h' => rw [h] at h'; cases h'
  · next h' => rw [h] at h'; cases h'; rfl

theorem lex_newline (depth : Nat) {s : List Char} (h : s.head? = some '<') :
    lex (newline depth ++ s) = .next (layoutEvent depth) (lex s) := by
  obtain ⟨rest, rfl⟩ : ∃ rest, s = '<' :: rest := List.head?_eq_some_iff.1 h
  refine lex_of_step (step_text (by simp [newline]) ?_ rest)
  simp [newline, List.mem_replicate]

/-- An element begins with its bracket. -/
theorem head?_render (t : Tree) (depth : Nat) (rest : List Char) :
    (t.render depth ++ rest).head? = some '<' := by
  match t with
  | .branch _ _ [] => rfl
  | .branch _ _ (_ :: _) => rfl
  | .leaf name text => unfold Tree.render; split <;> rfl

mutual

theorem lex_render (t : Tree) (ht : t.Named) (depth : Nat) (rest : List Char) :
    lex (t.render depth ++ rest) = .prepend (t.events depth) (lex rest) := by
  match t, ht with
  | .branch name as [], ⟨hn, ha, _⟩ =>
    have htext : (Tree.branch name as []).render depth ++ rest =
        '<' :: (tagOf name as).content ++ '/' :: '>' :: rest := by
      simp [Tree.render, tagOf]
    rw [htext, lex_of_step (step_empty hn ha rest)]
    rfl
  | .branch name as (child :: children), ⟨hn, ha, hc, hcs⟩ =>
    have htext : (Tree.branch name as (child :: children)).render depth ++ rest =
        '<' :: (tagOf name as).content ++ '>' :: (newline (depth + 1) ++ (child.render (depth + 1) ++
          (Tree.renderAll (depth + 1) children ++
            (newline depth ++ ('<' :: '/' :: name.toList ++ '>' :: rest))))) := by
      simp [Tree.render, tagOf]
    rw [htext, lex_of_step (step_opening hn ha _), lex_newline _ (head?_render child _ _),
      lex_render child hc, lex_renderAll children hcs, lex_newline _ rfl,
      lex_of_step (step_closing hn rest)]
    simp [Tree.events]
  | .leaf name text, hn =>
    unfold Tree.render Tree.events
    split
    · have htext : '<' :: name.toList ++ "/>".toList ++ rest =
          '<' :: (tagOf name []).content ++ '/' :: '>' :: rest := by
        simp [tagOf, renderAttributes]
      rw [htext, lex_of_step (step_empty hn (by simp) rest)]
      rfl
    · next hne =>
      have htext : '<' :: name.toList ++ ['>'] ++ escapeText text.toList ++ "</".toList ++
          name.toList ++ ['>'] ++ rest = '<' :: (tagOf name []).content ++
            '>' :: (escapeText text.toList ++ '<' :: ('/' :: name.toList ++ '>' :: rest)) := by
        simp [tagOf, renderAttributes]
      have hlist : text.toList ≠ [] := by simpa using hne
      rw [htext, lex_of_step (step_opening hn (by simp) _),
        lex_of_step (step_text (escapeText_ne_nil hlist) (not_mem_escapeText _) _),
        ← List.cons_append, lex_of_step (step_closing hn rest)]
      rfl

theorem lex_renderAll (ts : List Tree) (hts : Tree.NamedAll ts) (depth : Nat) (rest : List Char) :
    lex (Tree.renderAll depth ts ++ rest) = .prepend (Tree.eventsAll depth ts) (lex rest) := by
  match ts, hts with
  | [], _ => rfl
  | t :: ts, ⟨ht, hts⟩ =>
    have htext : Tree.renderAll depth (t :: ts) ++ rest =
        newline depth ++ (t.render depth ++ (Tree.renderAll depth ts ++ rest)) := by
      simp [Tree.renderAll]
    rw [htext, lex_newline _ (head?_render t _ _), lex_render t ht, lex_renderAll ts hts]
    simp [Tree.eventsAll]

end

/-! ## Nesting -/

mutual

/-- Every tag of a tree is closed before the tags that were open. -/
theorem checkNesting_events (t : Tree) (ht : t.Named) (depth : Nat) (names : List (List Char))
    (rest : Events) :
    checkNesting names (.prepend (t.events depth) rest) =
      .prepend (t.events depth) (checkNesting names rest) := by
  match t, ht with
  | .branch name as [], _ => simp [Tree.events, checkNesting]
  | .branch name as (child :: children), ⟨hn, _, hc, hcs⟩ =>
    simp [Tree.events, layoutEvent, checkNesting, tagOf_name hn, checkNesting_events child hc,
      checkNesting_eventsAll children hcs]
  | .leaf name text, hn =>
    unfold Tree.events
    split
    · simp [checkNesting]
    · simp [checkNesting, tagOf_name hn]

theorem checkNesting_eventsAll (ts : List Tree) (hts : Tree.NamedAll ts) (depth : Nat)
    (names : List (List Char)) (rest : Events) :
    checkNesting names (.prepend (Tree.eventsAll depth ts) rest) =
      .prepend (Tree.eventsAll depth ts) (checkNesting names rest) := by
  match ts, hts with
  | [], _ => rfl
  | t :: ts, ⟨ht, hts⟩ =>
    simp [Tree.eventsAll, layoutEvent, checkNesting, checkNesting_events t ht,
      checkNesting_eventsAll ts hts]

end

/-- The events of a document are those of its tree, behind the declaration and in layout. -/
theorem events_document (t : Tree) (ht : t.Named) :
    events t.document = .next .ignored (.next (layoutEvent 0)
      (.prepend (t.events 0) (checkNesting [] (lex ['\n'])))) := by
  have hmark : withoutMark t.document = declaration ++ (newline 0 ++ (t.render 0 ++ ['\n'])) := by
    simp only [Tree.document, List.append_assoc]
    rfl
  have hstep : step (declaration ++ (newline 0 ++ (t.render 0 ++ ['\n']))) =
      .event .ignored (newline 0 ++ (t.render 0 ++ ['\n'])) := rfl
  rw [events, hmark, lex_of_step hstep, lex_newline 0 (head?_render t 0 _), lex_render t ht]
  simp [layoutEvent, checkNesting, checkNesting_events t ht]

/-! ## Attributes -/

theorem keyStep?_render {a : String × String} (ha : IsName a.1.toList) (total : Nat)
    (rest : List Char) :
    ∃ position, keyStep? total (renderAttribute a ++ rest) =
      .ok (some (a.1.toList, position, '"' :: (escapeAttribute a.2.toList ++ '"' :: rest))) := by
  obtain ⟨c, tail, hc⟩ := List.exists_cons_of_ne_nil ha.1
  have hk : isSpace c = false := isSpace_of_isAlpha (ha.2 c (by rw [hc]; exact List.mem_cons_self))
  have htail : ∀ d ∈ tail, isKeyChar d = true := fun d hd => by
    have hd' : d.isAlpha = true := ha.2 d (by rw [hc]; exact List.mem_cons_of_mem _ hd)
    simp [isKeyChar, isSpace_of_isAlpha hd', isAlpha_ne hd' (d := '=') rfl]
  have htext : renderAttribute a ++ rest =
      ' ' :: c :: (tail ++ '=' :: '"' :: (escapeAttribute a.2.toList ++ '"' :: rest)) := by
    simp [renderAttribute, hc]
  have hdrop : (renderAttribute a ++ rest).dropWhile isSpace =
      c :: (tail ++ '=' :: '"' :: (escapeAttribute a.2.toList ++ '"' :: rest)) := by
    rw [htext, List.dropWhile_cons_of_pos rfl, List.dropWhile_cons_of_neg (by simp [hk])]
  have hbehind : ((tail ++ '=' :: '"' :: (escapeAttribute a.2.toList ++ '"' :: rest)).dropWhile
      isKeyChar).dropWhile isSpace =
        '=' :: '"' :: (escapeAttribute a.2.toList ++ '"' :: rest) := by
    rw [List.dropWhile_append_of_pos htail, List.dropWhile_cons_of_neg (by decide),
      List.dropWhile_cons_of_neg (by decide)]
  have hkey : (tail ++ '=' :: '"' :: (escapeAttribute a.2.toList ++ '"' :: rest)).takeWhile
      isKeyChar = tail := by
    rw [List.takeWhile_append_of_pos htail, List.takeWhile_cons_of_neg (by decide),
      List.append_nil]
  simp only [keyStep?, hdrop, hbehind, hkey, hc]
  exact ⟨_, rfl⟩

theorem quotedValue_render {value : List Char} (h : '"' ∉ value) (total : Nat) (rest : List Char) :
    quotedValue total ('"' :: (value ++ '"' :: rest)) = .ok (value, rest) := by
  have hv : ∀ c ∈ value, (c != '"') = true := fun c hc => by
    simp only [bne_iff_ne, ne_eq]
    rintro rfl
    exact h hc
  have htake : (value ++ '"' :: rest).takeWhile (· != '"') = value := by
    rw [List.takeWhile_append_of_pos hv, List.takeWhile_cons_of_neg (by simp), List.append_nil]
  have hdrop : (value ++ '"' :: rest).dropWhile (· != '"') = '"' :: rest := by
    rw [List.dropWhile_append_of_pos hv, List.dropWhile_cons_of_neg (by simp)]
  rw [quotedValue, List.dropWhile_cons_of_neg (by decide)]
  simp [htake, hdrop]

theorem attributeStep?_render {a : String × String} (ha : IsName a.1.toList) (total : Nat)
    {seen : List (List Char × Nat)} (hs : seen.lookup a.1.toList = none)
    (as : List (String × String)) :
    ∃ position, attributeStep? total seen (renderAttributes (a :: as)) =
      .ok (some ⟨a.1.toList, position, escapeAttribute a.2.toList, renderAttributes as⟩) := by
  obtain ⟨position, hk⟩ := keyStep?_render ha total (renderAttributes as)
  refine ⟨position, ?_⟩
  rw [attributeStep?, renderAttributes_cons, hk]
  simp only [hs, quotedValue_render (not_mem_escapeAttribute _)]

theorem rawAttribute?_render {as : List (String × String)} (hn : ∀ a ∈ as, IsName a.1.toList)
    (hd : (as.map (·.1)).Nodup) (total : Nat) (wanted : String) (seen : List (List Char × Nat))
    (hs : ∀ a ∈ as, seen.lookup a.1.toList = none) :
    rawAttribute? total wanted.toList seen (renderAttributes as) =
      .ok ((as.lookup wanted).map fun v => escapeAttribute v.toList) := by
  induction as generalizing seen with
  | nil =>
    rw [rawAttribute?]
    rfl
  | cons a as ih =>
    obtain ⟨position, h⟩ := attributeStep?_render (hn a List.mem_cons_self) total
      (hs a List.mem_cons_self) as
    rw [List.map_cons, List.nodup_cons] at hd
    rw [rawAttribute?]
    split
    · next h' => rw [h] at h'; cases h'
    · next h' => rw [h] at h'; cases h'
    · next h' =>
      rw [h] at h'
      cases h'
      by_cases hw : a.1 = wanted
      · have hb : (wanted == a.1) = true := beq_iff_eq.2 hw.symm
        rw [if_pos (by rw [hw]), List.lookup_cons, hb]
        rfl
      · have hw' : ¬ a.1.toList = wanted.toList := fun he => hw (String.toList_inj.1 he)
        have hb : (wanted == a.1) = false := beq_eq_false_iff_ne.2 (Ne.symm hw)
        rw [if_neg hw', List.lookup_cons, hb]
        refine ih (fun b hb => hn b (List.mem_cons_of_mem _ hb)) hd.2 _ fun b hb => ?_
        have hne : (b.1.toList == a.1.toList) = false := beq_eq_false_iff_ne.2 fun he =>
          hd.1 (String.toList_inj.1 he ▸ List.mem_map_of_mem hb)
        rw [List.lookup_cons, hne]
        exact hs b (List.mem_cons_of_mem _ hb)

/-- The attributes of a written tag have the values they were written with. -/
theorem attribute?_render {name : String} {as : List (String × String)} (hn : IsName name.toList)
    (ha : ∀ a ∈ as, IsName a.1.toList) (hd : (as.map (·.1)).Nodup) (wanted : String) :
    (tagOf name as).attribute? wanted = .ok (as.lookup wanted) := by
  have hdrop : (tagOf name as).content.drop (tagOf name as).name.length = renderAttributes as := by
    rw [tagOf_name hn]; simp [tagOf]
  have hraw := rawAttribute?_render ha hd (byteLength (tagOf name as).content) wanted []
    fun _ _ => rfl
  rw [Tag.attribute?, hdrop, hraw]
  cases as.lookup wanted with
  | none => rfl
  | some v => simp [unescape_escapeAttribute]

end ApiEvolution.Markup
