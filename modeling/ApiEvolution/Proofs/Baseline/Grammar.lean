import ApiEvolution.Proofs.Baseline.WrittenForm

/-!
# The documents that the reader accepts

`Whole es b`: the events `es` are one root element, behind fillers, whose sections and suppressions
are those of `b`. It is a grammar and says nothing about states: an element is its tags around what
is between them (`Element`), what is between the tags of the root, a section or a suppression are
elements and fillers (`Content`), and an unknown element may hold anything with matching tags
(`Balanced`).

`readEvents_eq_ok_iff`: the reader accepts exactly the sequences of events that begin with a whole
document. A content is read by the same argument at every level (`readsTo_content_iff`), from what
its level makes of an element (`ReadsElements`) and of all other events (`Between`).
-/

namespace ApiEvolution

open Markup

namespace Document

/-! ## Grammar -/

/-- A comment and the like, or layout. -/
inductive Filler : Event → Prop
  | ignored : Filler .ignored
  | layout {s : List Char} (h : isLayout s = true) : Filler (.text s)

/-- An element of the given tag, with what is between its tags. -/
inductive Element (t : Tag) : List Event → List Event → Prop
  | empty : Element t [] [.empty t]
  | tags (inner : List Event) : Element t inner (.opening t :: (inner ++ [.closing t.name]))

/-- The event neither opens nor closes an element. -/
def Single (e : Event) : Prop :=
  (∀ t, e ≠ .opening t) ∧ ∀ n, e ≠ .closing n

theorem single_empty (t : Tag) : Single (.empty t) := ⟨nofun, nofun⟩
theorem single_text (s : List Char) : Single (.text s) := ⟨nofun, nofun⟩
theorem single_characterData (s : List Char) : Single (.characterData s) := ⟨nofun, nofun⟩
theorem single_ignored : Single .ignored := ⟨nofun, nofun⟩

/-- Anything in which every closing tag answers the opening one before it. -/
inductive Balanced : List Event → Prop
  | nil : Balanced []
  | single {e : Event} {es : List Event} (he : Single e) (h : Balanced es) : Balanced (e :: es)
  | element {t : Tag} {inner es : List Event} (hi : Balanced inner) (h : Balanced es) :
      Balanced (.opening t :: (inner ++ .closing t.name :: es))

/-- What is between the tags of a text, and the text. -/
inductive Texts : List Event → List Char → Prop
  | nil : Texts [] []
  | ignored {es : List Event} {text : List Char} (h : Texts es text) : Texts (.ignored :: es) text
  | text {s piece text : List Char} {es : List Event} (hs : unescape s = .ok piece)
      (h : Texts es text) : Texts (.text s :: es) (piece ++ text)
  | characterData {s text : List Char} {es : List Event} (h : Texts es text) :
      Texts (.characterData s :: es) (s ++ text)

/-- Elements and fillers, one behind the other: an element with these contents leads from `a` to `b`
as `item` says. -/
inductive Content {α : Type} (item : α → Tag → List Event → α → Prop) : α → List Event → α → Prop
  | nil (a : α) : Content item a [] a
  | filler {a b : α} {e : Event} {es : List Event} (he : Filler e) (h : Content item a es b) :
      Content item a (e :: es) b
  | element {a b c : α} {t : Tag} {inner es fs : List Event} (he : Element t inner es)
      (hi : item a t inner b) (h : Content item b fs c) : Content item a (es ++ fs) c

/-- An element of a suppression: one of its texts, or an unknown one, which is passed over. -/
inductive FieldElement : Suppression → Tag → List Event → Suppression → Prop
  | field {x : Suppression} {t : Tag} {inner : List Event} {f : Field} {text : List Char}
      (hf : Field.ofName? t.name = some f) (ht : Texts inner text) :
      FieldElement x t inner (fill x f (String.ofList text))
  | unknown {x : Suppression} {t : Tag} {inner : List Event} (hf : Field.ofName? t.name = none)
      (hb : Balanced inner) : FieldElement x t inner x

/-- An element that is added to `a` as `add` says: its tag is read by `parse`, and its content
completes what came of that. -/
inductive AddedElement {α β : Type} (parse : Tag → Except Fault β)
    (item : β → Tag → List Event → β → Prop) (add : α → β → α) : α → Tag → List Event → α → Prop
  | mk {a : α} {t : Tag} {inner : List Event} {x y : β} (ht : parse t = .ok x)
      (hi : Content item x inner y) : AddedElement parse item add a t inner (add a y)

/-- An element of a section is a suppression. -/
def SuppressionElement : Section → Tag → List Event → Section → Prop :=
  AddedElement suppressionOf FieldElement addTo

/-- An element of the root is a section. -/
def SectionElement : List Section → Tag → List Event → List Section → Prop :=
  AddedElement sectionOf SuppressionElement fun ss s => ss ++ [s]

/-- The events are a whole document: one root element, with fillers in front of it. -/
inductive Whole : List Event → Baseline → Prop
  | root {t : Tag} {inner es : List Event} {ss : List Section} (hn : t.name = rootName.toList)
      (he : Element t inner es) (hi : Content SectionElement [] inner ss) : Whole es ⟨ss⟩
  | filler {e : Event} {es : List Event} {b : Baseline} (he : Filler e) (h : Whole es b) :
      Whole (e :: es) b

/-! ## One event -/

/-- The reader comes to `b` from here, with the elements of these names open. -/
def ReadsTo (names : List (List Char)) (state : Reading) (evs : Events) (b : Baseline) : Prop :=
  readEvents state (checkNesting names evs) = .ok b

section

variable {names : List (List Char)} {state state' : Reading} {rest : Events} {b : Baseline}

theorem exists_advance {e : Event} (h : readEvents state (.next e rest) = .ok b)
    (hs : ∀ b, state ≠ .finished b) :
    ∃ state', advance state e = .ok state' ∧ readEvents state' rest = .ok b := by
  rw [readEvents] at h
  · cases ha : advance state e with
    | error fault => rw [ha] at h; cases h
    | ok state' => rw [ha] at h; exact ⟨state', rfl, h⟩
  · exact hs

theorem ReadsTo.opening {t : Tag} (h : ReadsTo names state (.next (.opening t) rest) b)
    (hs : ∀ b, state ≠ .finished b := by rintro _ ⟨⟩) :
    ∃ state', advance state (.opening t) = .ok state' ∧
      ReadsTo (t.name :: names) state' rest b := by
  rw [ReadsTo, checkNesting] at h
  exact exists_advance h hs

theorem readsTo_opening {t : Tag} (ha : advance state (.opening t) = .ok state')
    (h : ReadsTo (t.name :: names) state' rest b)
    (hs : ∀ b, state ≠ .finished b := by rintro _ ⟨⟩) :
    ReadsTo names state (.next (.opening t) rest) b := by
  rw [ReadsTo, checkNesting, readEvents_next ha _ hs]
  exact h

/-- A closing tag has to answer the innermost open one. -/
theorem ReadsTo.closing {m n : List Char}
    (h : ReadsTo (m :: names) state (.next (.closing n) rest) b)
    (hs : ∀ b, state ≠ .finished b := by rintro _ ⟨⟩) :
    m = n ∧ ∃ state', advance state (.closing n) = .ok state' ∧ ReadsTo names state' rest b := by
  rw [ReadsTo, checkNesting] at h
  split at h
  · next hn => exact ⟨hn, exists_advance h hs⟩
  · rw [readEvents] at h
    · cases h
    · exact hs

theorem readsTo_closing {n : List Char} (ha : advance state (.closing n) = .ok state')
    (h : ReadsTo names state' rest b) (hs : ∀ b, state ≠ .finished b := by rintro _ ⟨⟩) :
    ReadsTo (n :: names) state (.next (.closing n) rest) b := by
  rw [ReadsTo, checkNesting, if_pos rfl, readEvents_next ha _ hs]
  exact h

/-- What is no tag of an open element leaves the open elements as they are. -/
theorem checkNesting_single {e : Event} (he : Single e) (names : List (List Char))
    (rest : Events) : checkNesting names (.next e rest) = .next e (checkNesting names rest) := by
  cases e with
  | opening t => exact absurd rfl (he.1 t)
  | closing n => exact absurd rfl (he.2 n)
  | _ => simp only [checkNesting]

theorem ReadsTo.single {e : Event} (h : ReadsTo names state (.next e rest) b) (he : Single e)
    (hs : ∀ b, state ≠ .finished b := by rintro _ ⟨⟩) :
    ∃ state', advance state e = .ok state' ∧ ReadsTo names state' rest b := by
  rw [ReadsTo, checkNesting_single he] at h
  exact exists_advance h hs

theorem readsTo_single {e : Event} (he : Single e) (ha : advance state e = .ok state')
    (h : ReadsTo names state' rest b) (hs : ∀ b, state ≠ .finished b := by rintro _ ⟨⟩) :
    ReadsTo names state (.next e rest) b := by
  rw [ReadsTo, checkNesting_single he, readEvents_next ha _ hs]
  exact h

theorem not_readsTo_fault {e : SyntaxError} (hs : ∀ b, state ≠ .finished b := by rintro _ ⟨⟩) :
    ¬ ReadsTo names state (.fault e) b := by
  intro h
  rw [ReadsTo, checkNesting, readEvents] at h
  · cases h
  · exact hs

theorem ReadsTo.atEnd_eq (h : ReadsTo names state .done b)
    (hs : ∀ b, state ≠ .finished b := by rintro _ ⟨⟩) : atEnd state = .ok b := by
  rw [ReadsTo, checkNesting, readEvents] at h
  · exact h
  · exact hs

theorem readsTo_finished {b' : Baseline} {evs : Events} :
    ReadsTo names (.finished b') evs b ↔ b' = b := by
  rw [ReadsTo, readEvents, Except.ok.injEq]

end

/-! ## Texts and unknown elements -/

/-- The number of events. -/
def eventCount : Events → Nat
  | .done => 0
  | .fault _ => 0
  | .next _ rest => eventCount rest + 1

theorem eventCount_prepend (es : List Event) (rest : Events) :
    eventCount (.prepend es rest) = es.length + eventCount rest := by
  induction es with
  | nil => simp
  | cons e es ih => rw [Events.prepend_cons, eventCount, ih, List.length_cons]; omega

section

variable {m n : List Char} {names : List (List Char)} {ss : List Section} {s : Section}
  {x : Suppression} {f : Field} {depth : Nat} {b : Baseline}

/-- A text is read up to its closing tag. -/
theorem exists_texts {text : List Char} {evs : Events}
    (h : ReadsTo (m :: names) (.inField ss s x f text) evs b) :
    ∃ inner more tail, evs = .prepend inner (.next (.closing m) tail) ∧ Texts inner more ∧
      ReadsTo names (.inSuppression ss s (fill x f (String.ofList (text ++ more)))) tail b := by
  induction evs generalizing text with
  | done => cases h.atEnd_eq
  | fault e => exact absurd h not_readsTo_fault
  | next e rest ih =>
    cases e with
    | opening t =>
      obtain ⟨_, ha, -⟩ := h.opening
      cases ha
    | closing n =>
      obtain ⟨rfl, _, ha, h⟩ := h.closing
      cases ha
      exact ⟨[], [], rest, rfl, .nil, by rw [List.append_nil]; exact h⟩
    | empty t =>
      obtain ⟨_, ha, -⟩ := h.single (single_empty t)
      cases ha
    | text raw =>
      obtain ⟨_, ha, h⟩ := h.single (single_text raw)
      rw [advance] at ha
      split at ha
      · next piece hp =>
        cases ha
        obtain ⟨inner, more, tail, rfl, ht, h⟩ := ih h
        exact ⟨_, _, tail, rfl, .text hp ht, by rw [← List.append_assoc]; exact h⟩
      · cases ha
    | characterData data =>
      obtain ⟨_, ha, h⟩ := h.single (single_characterData data)
      cases ha
      obtain ⟨inner, more, tail, rfl, ht, h⟩ := ih h
      exact ⟨_, _, tail, rfl, .characterData ht, by rw [← List.append_assoc]; exact h⟩
    | ignored =>
      obtain ⟨_, ha, h⟩ := h.single single_ignored
      cases ha
      obtain ⟨inner, more, tail, rfl, ht, h⟩ := ih h
      exact ⟨_, _, tail, rfl, .ignored ht, h⟩

theorem Texts.readsTo {inner : List Event} {text more : List Char} {tail : Events}
    (ht : Texts inner more)
    (h : ReadsTo names (.inSuppression ss s (fill x f (String.ofList (text ++ more)))) tail b) :
    ReadsTo (m :: names) (.inField ss s x f text)
      (.prepend inner (.next (.closing m) tail)) b := by
  induction ht generalizing text with
  | nil =>
    rw [List.append_nil] at h
    exact readsTo_closing rfl h
  | ignored _ ih => exact readsTo_single single_ignored rfl (ih h)
  | @text raw piece more es hp _ ih =>
    have ha : advance (.inField ss s x f text) (.text raw) =
        .ok (.inField ss s x f (text ++ piece)) := by
      simp only [advance, hp]
    rw [← List.append_assoc] at h
    exact readsTo_single (single_text raw) ha (ih h)
  | characterData _ ih =>
    rw [← List.append_assoc] at h
    exact readsTo_single (single_characterData _) rfl (ih h)

/-- Inside an unknown element all is passed over up to the closing tag that answers the last one
that was opened. -/
theorem exists_balanced {evs : Events}
    (h : ReadsTo (m :: names) (.inUnknown ss s x n depth) evs b) :
    ∃ inner tail, evs = .prepend inner (.next (.closing m) tail) ∧ Balanced inner ∧
      ReadsTo (m :: names) (.inUnknown ss s x n depth) (.next (.closing m) tail) b := by
  induction hc : eventCount evs using Nat.strongRecOn generalizing m names depth evs with
  | ind count ih =>
    cases evs with
    | done => cases h.atEnd_eq
    | fault e => exact absurd h not_readsTo_fault
    | next e rest =>
      rw [eventCount] at hc
      -- an event that neither opens nor closes an element changes nothing
      have hsingle (he : Single e)
          (ha : advance (.inUnknown ss s x n depth) e = .ok (.inUnknown ss s x n depth)) :
          ∃ inner tail, Events.next e rest = .prepend inner (.next (.closing m) tail) ∧
            Balanced inner ∧
            ReadsTo (m :: names) (.inUnknown ss s x n depth) (.next (.closing m) tail) b := by
        obtain ⟨_, ha', h⟩ := h.single he
        cases ha.symm.trans ha'
        obtain ⟨inner, tail, rfl, hb, h⟩ := ih _ (by omega) h rfl
        exact ⟨_, tail, rfl, .single he hb, h⟩
      cases e with
      | opening t =>
        obtain ⟨_, ha, h⟩ := h.opening
        cases ha
        obtain ⟨inner, tail, rfl, hi, h⟩ := ih _ (by omega) h rfl
        obtain ⟨-, _, ha, h⟩ := h.closing
        cases ha
        rw [eventCount_prepend, eventCount] at hc
        obtain ⟨behind, tail', rfl, hb, h⟩ := ih _ (by omega) h rfl
        exact ⟨.opening t :: (inner ++ .closing t.name :: behind), tail', by simp,
          .element hi hb, h⟩
      | closing n' =>
        obtain ⟨rfl, -⟩ := h.closing
        exact ⟨[], rest, rfl, .nil, h⟩
      | empty t => exact hsingle (single_empty t) rfl
      | text raw => exact hsingle (single_text raw) rfl
      | characterData data => exact hsingle (single_characterData data) rfl
      | ignored => exact hsingle single_ignored rfl

theorem Balanced.readsTo {inner : List Event} {tail : Events} (hb : Balanced inner)
    (h : ReadsTo names (.inUnknown ss s x n depth) tail b) :
    ReadsTo names (.inUnknown ss s x n depth) (.prepend inner tail) b := by
  induction hb generalizing names depth tail with
  | nil => exact h
  | @single e es he _ ih =>
    have ha : advance (.inUnknown ss s x n depth) e = .ok (.inUnknown ss s x n depth) := by
      cases e with
      | opening t => exact absurd rfl (he.1 t)
      | closing n => exact absurd rfl (he.2 n)
      | _ => rfl
    exact readsTo_single he ha (ih h)
  | @element t inner es _ _ ih ih' =>
    rw [Events.prepend_cons, Events.prepend_append, Events.prepend_cons]
    refine readsTo_opening rfl (ih ?_)
    exact readsTo_closing rfl (ih' h)

end

/-! ## Contents -/

/-- In the states `σ` the reader stands between elements: comments and layout are passed over, and
other text, character data and the end of the text are faults. -/
structure Between {α : Type} (σ : α → Reading) : Prop where
  unfinished : ∀ a b, σ a ≠ .finished b
  ignored : ∀ a, advance (σ a) .ignored = .ok (σ a)
  text : ∃ place, ∀ a s, advance (σ a) (.text s) = layout place s (σ a)
  characterData : ∀ a s state, advance (σ a) (.characterData s) ≠ .ok state
  atEnd : ∀ a b, atEnd (σ a) ≠ .ok b

/-- In the states `σ` the reader takes an element as `item` says, and is accepted with nothing
else. -/
structure ReadsElements {α : Type} (σ : α → Reading) (item : α → Tag → List Event → α → Prop) :
    Prop where
  empty : ∀ {names a t rest b}, ReadsTo names (σ a) (.next (.empty t) rest) b ↔
    ∃ a', item a t [] a' ∧ ReadsTo names (σ a') rest b
  opening : ∀ {names a t rest b}, ReadsTo names (σ a) (.next (.opening t) rest) b ↔
    ∃ inner a' tail, rest = .prepend inner (.next (.closing t.name) tail) ∧ item a t inner a' ∧
      ReadsTo names (σ a') tail b

section

variable {α : Type} {σ : α → Reading} {item : α → Tag → List Event → α → Prop}

theorem Filler.single {e : Event} (h : Filler e) : Single e := by
  cases h with
  | ignored => exact single_ignored
  | layout => exact single_text _

theorem layout_eq_ok_iff {place : String} {s : List Char} {state state' : Reading} :
    layout place s state = .ok state' ↔ isLayout s = true ∧ state = state' := by
  rw [layout]
  split
  · next h => simp [h]
  · next h => simp [h]

theorem Between.filler (h : Between σ) {e : Event} (he : Filler e) (a : α) :
    advance (σ a) e = .ok (σ a) := by
  cases he with
  | ignored => exact h.ignored a
  | layout hs =>
    obtain ⟨place, ht⟩ := h.text
    rw [ht, layout_eq_ok_iff]
    exact ⟨hs, rfl⟩

/-- What reads as content is content, and nothing was passed over. -/
theorem exists_content (hσ : Between σ) (hel : ReadsElements σ item) {m : List Char}
    {names : List (List Char)} {a : α} {evs : Events} {b : Baseline}
    (h : ReadsTo (m :: names) (σ a) evs b) :
    ∃ inner a' tail, evs = .prepend inner (.next (.closing m) tail) ∧ Content item a inner a' ∧
      ReadsTo (m :: names) (σ a') (.next (.closing m) tail) b := by
  induction hc : eventCount evs using Nat.strongRecOn generalizing a evs with
  | ind count ih =>
    cases evs with
    | done => exact absurd (h.atEnd_eq (hσ.unfinished a)) (hσ.atEnd a b)
    | fault e => exact absurd h (not_readsTo_fault (hσ.unfinished a))
    | next e rest =>
      rw [eventCount] at hc
      have hfiller (he : Filler e) : ∃ inner a' tail,
          Events.next e rest = .prepend inner (.next (.closing m) tail) ∧
            Content item a inner a' ∧ ReadsTo (m :: names) (σ a') (.next (.closing m) tail) b := by
        obtain ⟨_, ha, h⟩ := h.single he.single (hσ.unfinished a)
        cases (hσ.filler he a).symm.trans ha
        obtain ⟨inner, a', tail, rfl, hi, h⟩ := ih _ (by omega) h rfl
        exact ⟨_, a', tail, rfl, .filler he hi, h⟩
      cases e with
      | opening t =>
        obtain ⟨inner, a', tail, rfl, hi, h⟩ := hel.opening.1 h
        rw [eventCount_prepend, eventCount] at hc
        obtain ⟨behind, a'', tail', rfl, hb, h⟩ := ih _ (by omega) h rfl
        exact ⟨_, a'', tail', by simp, .element (.tags inner) hi hb, h⟩
      | empty t =>
        obtain ⟨a', hi, h⟩ := hel.empty.1 h
        obtain ⟨behind, a'', tail, rfl, hb, h⟩ := ih _ (by omega) h rfl
        exact ⟨_, a'', tail, rfl, .element .empty hi hb, h⟩
      | closing n =>
        obtain ⟨rfl, -⟩ := h.closing (hσ.unfinished a)
        exact ⟨[], a, rest, rfl, .nil a, h⟩
      | text s =>
        obtain ⟨state, ha, -⟩ := h.single (single_text s) (hσ.unfinished a)
        obtain ⟨place, ht⟩ := hσ.text
        rw [ht, layout_eq_ok_iff] at ha
        exact hfiller (.layout ha.1)
      | characterData s =>
        obtain ⟨state, ha, -⟩ := h.single (single_characterData s) (hσ.unfinished a)
        exact absurd ha (hσ.characterData a s state)
      | ignored => exact hfiller .ignored

/-- Content is read as what it says, whatever is behind it. -/
theorem readsTo_content (hσ : Between σ) (hel : ReadsElements σ item) {names : List (List Char)}
    {a a' : α} {es : List Event} {tail : Events} {b : Baseline} (hi : Content item a es a')
    (h : ReadsTo names (σ a') tail b) : ReadsTo names (σ a) (.prepend es tail) b := by
  induction hi with
  | nil => exact h
  | filler he _ ih =>
    exact readsTo_single he.single (hσ.filler he _) (ih h) (hσ.unfinished _)
  | element he hi _ ih =>
    rw [Events.prepend_append]
    cases he with
    | empty => exact hel.empty.2 ⟨_, hi, ih h⟩
    | tags =>
      rw [Events.prepend_cons, Events.prepend_append]
      exact hel.opening.2 ⟨_, _, _, rfl, hi, ih h⟩

/-- Between an opening tag and the closing one that answers it stands content, if the closing tag
leads on from `σ` as `next` says. -/
theorem readsTo_content_iff (hσ : Between σ) (hel : ReadsElements σ item) {next : α → Reading}
    (hnext : ∀ a n, advance (σ a) (.closing n) = .ok (next a)) {m : List Char}
    {names : List (List Char)} {a : α} {evs : Events} {b : Baseline} :
    ReadsTo (m :: names) (σ a) evs b ↔
      ∃ inner a' tail, evs = .prepend inner (.next (.closing m) tail) ∧ Content item a inner a' ∧
        ReadsTo names (next a') tail b := by
  constructor
  · intro h
    obtain ⟨inner, a', tail, rfl, hi, h⟩ := exists_content hσ hel h
    obtain ⟨-, _, ha, h⟩ := h.closing (hσ.unfinished a')
    cases (hnext a' m).symm.trans ha
    exact ⟨inner, a', tail, rfl, hi, h⟩
  · rintro ⟨inner, a', tail, rfl, hi, h⟩
    exact readsTo_content hσ hel hi (readsTo_closing (hnext a' m) h (hσ.unfinished a'))

end

/-! ## The levels of a document -/

theorem between_inSuppression (ss : List Section) (s : Section) :
    Between (Reading.inSuppression ss s) :=
  ⟨nofun, fun _ => rfl, ⟨_, fun _ _ => rfl⟩, nofun, nofun⟩

theorem between_inSection (ss : List Section) : Between (Reading.inSection ss) :=
  ⟨nofun, fun _ => rfl, ⟨_, fun _ _ => rfl⟩, nofun, nofun⟩

theorem between_inRoot : Between Reading.inRoot :=
  ⟨nofun, fun _ => rfl, ⟨_, fun _ _ => rfl⟩, nofun, nofun⟩

theorem readsElements_inSuppression (ss : List Section) (s : Section) :
    ReadsElements (Reading.inSuppression ss s) FieldElement where
  empty := by
    intro names x t rest b
    constructor
    · intro h
      obtain ⟨_, ha, h⟩ := h.single (single_empty t)
      rw [advance] at ha
      split at ha
      · next f hf => cases ha; exact ⟨_, .field hf .nil, h⟩
      · next hf => cases ha; exact ⟨_, .unknown hf .nil, h⟩
    · rintro ⟨y, hi, h⟩
      cases hi with
      | field hf ht =>
        cases ht
        exact readsTo_single (single_empty t) (by simp only [advance, hf, String.ofList_nil]) h
      | unknown hf => exact readsTo_single (single_empty t) (by simp only [advance, hf]) h
  opening := by
    intro names x t rest b
    constructor
    · intro h
      obtain ⟨_, ha, h⟩ := h.opening
      rw [advance] at ha
      split at ha
      · next f hf =>
        cases ha
        obtain ⟨inner, text, tail, rfl, ht, h⟩ := exists_texts h
        exact ⟨inner, _, tail, rfl, .field hf ht, h⟩
      · next hf =>
        cases ha
        obtain ⟨inner, tail, rfl, hb, h⟩ := exists_balanced h
        obtain ⟨-, _, ha, h⟩ := h.closing
        cases ha
        exact ⟨inner, _, tail, rfl, .unknown hf hb, h⟩
    · rintro ⟨inner, y, tail, rfl, hi, h⟩
      cases hi with
      | @field f text hf ht =>
        have ha : advance (.inSuppression ss s x) (.opening t) = .ok (.inField ss s x f []) := by
          simp only [advance, hf]
        exact readsTo_opening ha (ht.readsTo h)
      | unknown hf hb =>
        have ha : advance (.inSuppression ss s x) (.opening t) =
            .ok (.inUnknown ss s x t.name 0) := by
          simp only [advance, hf]
        exact readsTo_opening ha (hb.readsTo (readsTo_closing rfl h))

/-- Between the tags of an empty element stands nothing. -/
theorem Content.eq_of_nil {α : Type} {item : α → Tag → List Event → α → Prop} {a b : α}
    (h : Content item a [] b) : a = b := by
  generalize hes : ([] : List Event) = es at h
  cases h with
  | nil => rfl
  | filler => cases hes
  | element he => cases he <;> cases hes

/-- A level whose elements are read tag by tag: what the tag gives is the state of the level
below. -/
theorem readsElements_added {α β : Type} {σ : α → Reading} {child : α → β → Reading}
    {parse : Tag → Except Fault β} {item : β → Tag → List Event → β → Prop} {add : α → β → α}
    (hσ : Between σ) (hchild : ∀ a, Between (child a)) (hel : ∀ a, ReadsElements (child a) item)
    (hopen : ∀ a t, advance (σ a) (.opening t) = (do return child a (← parse t)))
    (hempty : ∀ a t, advance (σ a) (.empty t) = (do return σ (add a (← parse t))))
    (hclose : ∀ a x n, advance (child a x) (.closing n) = .ok (σ (add a x))) :
    ReadsElements σ (AddedElement parse item add) where
  empty := by
    intro names a t rest b
    constructor
    · intro h
      obtain ⟨_, ha, h⟩ := h.single (single_empty t) (hσ.unfinished a)
      rw [hempty] at ha
      cases hp : parse t with
      | error fault => rw [hp] at ha; cases ha
      | ok x =>
        rw [hp] at ha
        cases ha
        exact ⟨_, .mk hp (.nil x), h⟩
    · rintro ⟨_, ⟨hp, hi⟩, h⟩
      cases hi.eq_of_nil
      exact readsTo_single (single_empty t) (by rw [hempty, hp]; rfl) h (hσ.unfinished a)
  opening := by
    intro names a t rest b
    constructor
    · intro h
      obtain ⟨_, ha, h⟩ := h.opening (hσ.unfinished a)
      rw [hopen] at ha
      cases hp : parse t with
      | error fault => rw [hp] at ha; cases ha
      | ok x =>
        rw [hp] at ha
        cases ha
        obtain ⟨inner, y, tail, rfl, hi, h⟩ :=
          (readsTo_content_iff (hchild a) (hel a) (hclose a)).1 h
        exact ⟨inner, _, tail, rfl, .mk hp hi, h⟩
    · rintro ⟨inner, _, tail, rfl, ⟨hp, hi⟩, h⟩
      have ha := hopen a t
      rw [hp] at ha
      refine readsTo_opening ha ?_ (hσ.unfinished a)
      exact (readsTo_content_iff (hchild a) (hel a) (hclose a)).2 ⟨inner, _, tail, rfl, hi, h⟩

theorem readsElements_inSection (ss : List Section) :
    ReadsElements (Reading.inSection ss) SuppressionElement :=
  readsElements_added (between_inSection ss) (between_inSuppression ss)
    (readsElements_inSuppression ss) (fun _ _ => rfl) (fun _ _ => rfl) fun _ _ _ => rfl

theorem readsElements_inRoot : ReadsElements Reading.inRoot SectionElement :=
  readsElements_added between_inRoot between_inSection readsElements_inSection
    (fun _ _ => rfl) (fun _ _ => rfl) fun _ _ _ => rfl

/-! ## Whole documents -/

/-- A tag before the root element has to be the root's. -/
theorem advance_outside_opening {t : Tag} {state : Reading} :
    advance .outside (.opening t) = .ok state ↔ t.name = rootName.toList ∧ .inRoot [] = state := by
  rw [advance, expectName]
  split
  · next h => simp [h, bind, Except.bind, pure, Except.pure]
  · next h => simp [h, bind, Except.bind]

theorem advance_outside_empty {t : Tag} {state : Reading} :
    advance .outside (.empty t) = .ok state ↔
      t.name = rootName.toList ∧ .finished ⟨[]⟩ = state := by
  rw [advance, expectName]
  split
  · next h => simp [h, bind, Except.bind, pure, Except.pure]
  · next h => simp [h, bind, Except.bind]

theorem between_outside : Between fun _ : Unit => Reading.outside :=
  ⟨nofun, fun _ => rfl, ⟨_, fun _ _ => rfl⟩, nofun, nofun⟩

/-- What is read as a document begins with one. -/
theorem exists_whole {evs : Events} {b : Baseline} (h : ReadsTo [] .outside evs b) :
    ∃ es tail, evs = .prepend es tail ∧ Whole es b := by
  induction evs with
  | done => cases h.atEnd_eq
  | fault e => exact absurd h not_readsTo_fault
  | next e rest ih =>
    have hfiller (he : Filler e) :
        ∃ es tail, Events.next e rest = .prepend es tail ∧ Whole es b := by
      obtain ⟨_, ha, h⟩ := h.single he.single
      cases (between_outside.filler he ()).symm.trans ha
      obtain ⟨es, tail, rfl, hw⟩ := ih h
      exact ⟨_, tail, rfl, .filler he hw⟩
    cases e with
    | opening t =>
      obtain ⟨_, ha, h⟩ := h.opening
      obtain ⟨hn, rfl⟩ := advance_outside_opening.1 ha
      have hclose (ss : List Section) (n : List Char) :
          advance (.inRoot ss) (.closing n) = .ok (.finished ⟨ss⟩) := rfl
      obtain ⟨inner, ss, tail, rfl, hi, h⟩ :=
        (readsTo_content_iff between_inRoot readsElements_inRoot hclose).1 h
      obtain rfl := readsTo_finished.1 h
      exact ⟨_, tail, by simp, .root hn (.tags inner) hi⟩
    | empty t =>
      obtain ⟨_, ha, h⟩ := h.single (single_empty t)
      obtain ⟨hn, rfl⟩ := advance_outside_empty.1 ha
      obtain rfl := readsTo_finished.1 h
      exact ⟨_, rest, rfl, .root hn .empty (.nil [])⟩
    | closing n =>
      have hfault : ReadsTo [] .outside (.fault (.unmatchedTag n)) b := h
      exact absurd hfault not_readsTo_fault
    | text s =>
      obtain ⟨_, ha, -⟩ := h.single (single_text s)
      exact hfiller (.layout (layout_eq_ok_iff.1 ha).1)
    | characterData s =>
      obtain ⟨_, ha, -⟩ := h.single (single_characterData s)
      cases ha
    | ignored => exact hfiller .ignored

/-- A whole document is read as what it says, whatever is behind it. -/
theorem Whole.readsTo {es : List Event} {b : Baseline} (h : Whole es b) (tail : Events) :
    ReadsTo [] .outside (.prepend es tail) b := by
  induction h with
  | @root t inner es ss hn he hi =>
    cases he with
    | empty =>
      cases hi.eq_of_nil
      have ha := advance_outside_empty.2 ⟨hn, rfl⟩
      exact readsTo_single (single_empty t) ha (readsTo_finished.2 rfl)
    | tags =>
      rw [Events.prepend_cons, Events.prepend_append]
      refine readsTo_opening (advance_outside_opening.2 ⟨hn, rfl⟩) ?_
      refine readsTo_content between_inRoot readsElements_inRoot hi ?_
      exact readsTo_closing rfl (readsTo_finished.2 rfl)
  | filler he _ ih =>
    exact readsTo_single he.single (between_outside.filler he ()) ih

/-- The reader accepts the events that begin with a whole document, and no others. -/
theorem readEvents_eq_ok_iff {evs : Events} {b : Baseline} :
    readEvents .outside (checkNesting [] evs) = .ok b ↔
      ∃ es tail, evs = .prepend es tail ∧ Whole es b := by
  constructor
  · exact exists_whole
  · rintro ⟨es, tail, rfl, h⟩
    exact h.readsTo tail

end Document

end ApiEvolution
