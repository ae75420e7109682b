import Mathlib.Data.List.Forall2
import ApiEvolution.Proofs.Baseline.Grammar
import ApiEvolution.Proofs.Markup.Lexemes

/-!
# What an accepted text says

`Baseline.read_eq_ok_iff`: a text is accepted with a baseline exactly if it begins with the spelling
of a whole document of that baseline. Every tag of a section or suppression in it has given one
entry, in document order (`Whole.announced`): none was lost.

The text behind the root element is not read (`Baseline.read_append`), so it can be anything,
another root element with suppressions of its own included (`Baseline.not_wholeText_of_read`).
-/

namespace ApiEvolution

open Markup Document

/-! ## Entries -/

/-- One entry of a baseline: a section of two names, or a suppression of a change. -/
inductive Entry where
  | pair (left right : String)
  | suppression (change : Change)

def Section.entries (s : Section) : List Entry :=
  .pair s.left s.right :: s.suppressions.map fun x => .suppression x.change

/-- The entries in their order: those of a section behind it. -/
def Baseline.entries (b : Baseline) : List Entry :=
  b.sections.flatMap Section.entries

namespace Document

/-- The tag is that of the entry. -/
def Announces (t : Tag) : Entry → Prop
  | .pair left right => sectionOf t = .ok ⟨left, right, []⟩
  | .suppression change => suppressionOf t = .ok ⟨change, none, none⟩

/-- The tags that begin elements, without those inside suppressions: an element there is a text or
unknown. -/
def outerTags : Nat → List Event → List Tag
  | _, [] => []
  | depth, .opening t :: es => (if depth < 3 then [t] else []) ++ outerTags (depth + 1) es
  | depth, .empty t :: es => (if depth < 3 then [t] else []) ++ outerTags depth es
  | depth, .closing _ :: es => outerTags (depth - 1) es
  | depth, _ :: es => outerTags depth es

/-- The tag has the name of a section or a suppression. -/
def isEntryTag (t : Tag) : Bool :=
  t.name == sectionName.toList || t.name == suppressionName.toList

/-- The tags of sections and suppressions, in document order. -/
def entryTags (es : List Event) : List Tag :=
  (outerTags 0 es).filter isEntryTag

/-! ## Tags of elements -/

/-- The events begin elements of the tags `ts`, at this depth, and come back to it. -/
def Opens (depth : Nat) (es : List Event) (ts : List Tag) : Prop :=
  ∀ rest, outerTags depth (es ++ rest) = ts ++ outerTags depth rest

theorem Opens.nil (depth : Nat) : Opens depth [] [] :=
  fun _ => rfl

theorem Opens.append {depth : Nat} {es fs : List Event} {ts us : List Tag} (h : Opens depth es ts)
    (h' : Opens depth fs us) : Opens depth (es ++ fs) (ts ++ us) := by
  intro rest
  rw [List.append_assoc, h, h', List.append_assoc]

theorem Opens.unique {depth : Nat} {es : List Event} {ts us : List Tag} (h : Opens depth es ts)
    (h' : Opens depth es us) : ts = us := by
  simpa [outerTags] using (h []).symm.trans (h' [])

/-- An event that begins no element that counts. -/
theorem Opens.cons {depth : Nat} {e : Event} {es : List Event} {ts : List Tag}
    (he : ∀ rest, outerTags depth (e :: rest) = outerTags depth rest) (h : Opens depth es ts) :
    Opens depth (e :: es) ts := by
  intro rest
  rw [List.cons_append, he, h]

theorem Filler.outerTags_eq {e : Event} (h : Filler e) (depth : Nat) (rest : List Event) :
    outerTags depth (e :: rest) = outerTags depth rest := by
  cases h <;> rfl

theorem opens_tags {depth : Nat} {t : Tag} {inner : List Event} {ts : List Tag} {n : List Char}
    (h : Opens (depth + 1) inner ts) :
    Opens depth (.opening t :: (inner ++ [.closing n]))
      ((if depth < 3 then [t] else []) ++ ts) := by
  intro rest
  have hinner := h (.closing n :: rest)
  rw [outerTags, Nat.add_sub_cancel] at hinner
  simp [outerTags, hinner]

theorem Element.opens {depth : Nat} {t : Tag} {inner es : List Event} {ts : List Tag}
    (he : Element t inner es) (h : Opens (depth + 1) inner ts) :
    Opens depth es ((if depth < 3 then [t] else []) ++ ts) := by
  cases he with
  | empty =>
    obtain rfl := h.unique (.nil _)
    intro rest
    simp [outerTags]
  | tags => exact opens_tags h

/-- An unknown element begins none that counts. -/
theorem Balanced.opens {es : List Event} (h : Balanced es) {depth : Nat} (hd : 3 ≤ depth) :
    Opens depth es [] := by
  induction h generalizing depth with
  | nil => exact .nil depth
  | @single e es he _ ih =>
    refine .cons (fun rest => ?_) (ih hd)
    cases e with
    | opening t => exact absurd rfl (he.1 t)
    | closing n => exact absurd rfl (he.2 n)
    | empty t => rw [outerTags, if_neg (Nat.not_lt.2 hd), List.nil_append]
    | _ => rfl
  | @element t inner es _ _ ih ih' =>
    have ht := (opens_tags (t := t) (n := t.name) (ih (Nat.le_succ_of_le hd))).append (ih' hd)
    simpa [Nat.not_lt.2 hd] using ht

theorem Texts.opens {es : List Event} {text : List Char} (h : Texts es text) (depth : Nat) :
    Opens depth es [] := by
  induction h with
  | nil => exact .nil depth
  | ignored _ ih => exact .cons (fun _ => rfl) ih
  | text _ _ ih => exact .cons (fun _ => rfl) ih
  | characterData _ ih => exact .cons (fun _ => rfl) ih

/-! ## Every tag gives an entry -/

/-- The events lead from the entries `old` to `new`: each of their tags of sections and suppressions
adds one entry, in this order. -/
def Accounts (depth : Nat) (es : List Event) (old new : List Entry) : Prop :=
  ∃ ts added, Opens depth es ts ∧ new = old ++ added ∧
    List.Forall₂ Announces (ts.filter isEntryTag) added

theorem Accounts.of_opens_nil {depth : Nat} {es : List Event} (h : Opens depth es [])
    (old : List Entry) : Accounts depth es old old :=
  ⟨[], [], h, (List.append_nil old).symm, .nil⟩

theorem Accounts.cons {depth : Nat} {e : Event} {es : List Event} {xs ys : List Entry}
    (he : ∀ rest, outerTags depth (e :: rest) = outerTags depth rest)
    (h : Accounts depth es xs ys) : Accounts depth (e :: es) xs ys := by
  obtain ⟨ts, added, ho, hy, ha⟩ := h
  exact ⟨ts, added, ho.cons he, hy, ha⟩

theorem Accounts.append {depth : Nat} {es fs : List Event} {xs ys zs : List Entry}
    (h : Accounts depth es xs ys) (h' : Accounts depth fs ys zs) :
    Accounts depth (es ++ fs) xs zs := by
  obtain ⟨ts, added, ho, rfl, ha⟩ := h
  obtain ⟨us, more, ho', rfl, ha'⟩ := h'
  refine ⟨ts ++ us, added ++ more, ho.append ho', List.append_assoc _ _ _, ?_⟩
  rw [List.filter_append]
  exact List.rel_append ha ha'

section

variable {α β : Type} {depth : Nat} {old : α → List Entry}

theorem Content.accounts {item : α → Tag → List Event → α → Prop}
    (hitem : ∀ a t inner b es, item a t inner b → Element t inner es →
      Accounts depth es (old a) (old b))
    {a b : α} {es : List Event} (h : Content item a es b) : Accounts depth es (old a) (old b) := by
  induction h with
  | nil a => exact .of_opens_nil (.nil depth) _
  | filler he _ ih => exact ih.cons (he.outerTags_eq depth)
  | element he hi _ ih => exact (hitem _ _ _ _ _ hi he).append ih

/-- An element whose tag announces an entry, on a level where tags count. -/
theorem AddedElement.accounts {new : β → List Entry} {parse : Tag → Except Fault β}
    {item : β → Tag → List Event → β → Prop} {add : α → β → α} (hd : depth < 3)
    (hparse : ∀ t x, parse t = .ok x →
      isEntryTag t = true ∧ ∃ entry, new x = [entry] ∧ Announces t entry)
    (hadd : ∀ a y, old (add a y) = old a ++ new y)
    (hitem : ∀ a t inner b es, item a t inner b → Element t inner es →
      Accounts (depth + 1) es (new a) (new b))
    {a b : α} {t : Tag} {inner es : List Event} (h : AddedElement parse item add a t inner b)
    (he : Element t inner es) : Accounts depth es (old a) (old b) := by
  cases h with
  | @mk x y ht hi =>
    obtain ⟨hentry, entry, hx, ha⟩ := hparse t x ht
    obtain ⟨ts, added, ho, hy, hforall⟩ := Content.accounts hitem hi
    refine ⟨_, entry :: added, he.opens ho, ?_, ?_⟩
    · rw [hadd, hy, hx]
      rfl
    · rw [if_pos hd, List.singleton_append, List.filter_cons_of_pos hentry]
      exact .cons ha hforall

end

/-- An element inside a suppression adds no entry. -/
theorem FieldElement.accounts {x y : Suppression} {t : Tag} {inner es : List Event}
    (h : FieldElement x t inner y) (he : Element t inner es) :
    Accounts 3 es [.suppression x.change] [.suppression y.change] := by
  cases h with
  | @field f text hf ht =>
    have hchange : (fill x f (String.ofList text)).change = x.change := by cases f <;> rfl
    rw [hchange]
    exact .of_opens_nil (he.opens (ht.opens 4)) _
  | unknown hf hb => exact .of_opens_nil (he.opens (hb.opens (by decide))) _

theorem name_of_expectName {expected : String} {t : Tag} {u : Unit}
    (h : expectName expected t = .ok u) : t.name = expected.toList := by
  rw [expectName] at h
  split at h
  · next hn => exact hn
  · cases h

theorem sectionOf_eq_ok {t : Tag} {s : Section} (h : sectionOf t = .ok s) :
    t.name = sectionName.toList ∧ s.suppressions = [] := by
  rw [sectionOf] at h
  cases hn : expectName sectionName t with
  | error fault => rw [hn] at h; cases h
  | ok u =>
    rw [hn] at h
    refine ⟨name_of_expectName hn, ?_⟩
    cases hl : required t leftName with
    | error fault => rw [hl] at h; cases h
    | ok left =>
      cases hr : required t rightName with
      | error fault => rw [hl, hr] at h; cases h
      | ok right => rw [hl, hr] at h; cases h; rfl

theorem suppressionOf_eq_ok {t : Tag} {x : Suppression} (h : suppressionOf t = .ok x) :
    t.name = suppressionName.toList ∧ x = ⟨x.change, none, none⟩ := by
  rw [suppressionOf] at h
  cases hn : expectName suppressionName t with
  | error fault => rw [hn] at h; cases h
  | ok u =>
    rw [hn] at h
    refine ⟨name_of_expectName hn, ?_⟩
    cases hr : required t changeName with
    | error fault => rw [hr] at h; cases h
    | ok text =>
      rw [hr] at h
      cases hc : Change.ofText? text with
      | none => simp only [bind, Except.bind, hc] at h; cases h
      | some change => simp only [bind, Except.bind, hc] at h; cases h; rfl

/-- The element of a suppression adds its entry. -/
theorem accounts_suppression {s s' : Section} {t : Tag} {inner es : List Event}
    (h : SuppressionElement s t inner s') (he : Element t inner es) :
    Accounts 2 es s.entries s'.entries := by
  refine AddedElement.accounts (by decide) (fun t x hx => ?_) (fun s y => ?_)
    (fun _ _ _ _ _ hi he => hi.accounts he) h he
  · obtain ⟨hn, hx'⟩ := suppressionOf_eq_ok hx
    refine ⟨by simp [isEntryTag, hn], _, rfl, ?_⟩
    rw [Announces, hx, ← hx']
  · simp [Section.entries, addTo]

/-- The element of a section adds its entry and those of its suppressions. -/
theorem accounts_section {ss ss' : List Section} {t : Tag} {inner es : List Event}
    (h : SectionElement ss t inner ss') (he : Element t inner es) :
    Accounts 1 es (ss.flatMap Section.entries) (ss'.flatMap Section.entries) := by
  refine AddedElement.accounts (by decide) (fun t s hs => ?_) (fun ss s => ?_)
    (fun _ _ _ _ _ hi he => accounts_suppression hi he) h he
  · obtain ⟨hn, hx⟩ := sectionOf_eq_ok hs
    obtain ⟨left, right, xs⟩ := s
    obtain rfl : xs = [] := hx
    exact ⟨by simp [isEntryTag, hn], _, rfl, hs⟩
  · simp

/-- Each tag of a section or suppression in a whole document has given one entry, and the entries
are in the order of the tags. -/
theorem Whole.announced {es : List Event} {b : Baseline} (h : Whole es b) :
    List.Forall₂ Announces (entryTags es) b.entries := by
  have haccounts : Accounts 0 es [] b.entries := by
    induction h with
    | @root t inner es ss hn he hi =>
      obtain ⟨ts, added, ho, hb, ha⟩ := hi.accounts fun _ _ _ _ _ hi he => accounts_section hi he
      have hroot : isEntryTag t = false := by rw [isEntryTag, hn]; decide
      refine ⟨_, added, he.opens ho, hb, ?_⟩
      rw [if_pos (by decide), List.singleton_append, List.filter_cons_of_neg (by simp [hroot])]
      exact ha
    | filler he _ ih => exact ih.cons (he.outerTags_eq 0)
  obtain ⟨ts, added, ho, hb, ha⟩ := haccounts
  have htags : outerTags 0 es = ts := by simpa [outerTags] using ho []
  obtain rfl : b.entries = added := hb
  rw [entryTags, htags]
  exact ha

/-- A whole document ends with its root element. -/
theorem Whole.getLast?_ne_text {es : List Event} {b : Baseline} (h : Whole es b) (s : List Char) :
    es ≠ [] ∧ es.getLast? ≠ some (.text s) := by
  induction h with
  | root _ he _ =>
    cases he with
    | empty => simp
    | tags inner => simp [List.getLast?_cons]
  | filler _ _ ih =>
    obtain ⟨hne, hlast⟩ := ih
    refine ⟨List.cons_ne_nil _ _, ?_⟩
    rw [List.getLast?_cons_of_ne_nil hne]
    exact hlast

end Document

theorem withoutMark_append {s : List Char} (h : withoutMark s ≠ []) (more : List Char) :
    withoutMark (s ++ more) = withoutMark s ++ more := by
  rcases s with _ | ⟨c, s⟩
  · exact absurd rfl h
  by_cases hc : c = '\uFEFF'
  · subst hc
    rfl
  · have hsame (t : List Char) : withoutMark (c :: t) = c :: t := by
      unfold withoutMark
      split
      · next he => exact absurd (List.cons.inj he).1 hc
      · rfl
    rw [List.cons_append, hsame, hsame, List.cons_append]

/-- Whatever is appended to an accepted text, it is accepted with the same baseline: what stands
behind the root element is not read. -/
theorem Baseline.read_append {text : String} {b : Baseline} (h : Baseline.read text = .ok b)
    (more : String) : Baseline.read (text ++ more) = .ok b := by
  rw [Baseline.read, events, readEvents_eq_ok_iff] at h ⊢
  obtain ⟨es, tail, hlex, hw⟩ := h
  obtain ⟨behind, hs, -⟩ := exists_spells hlex
  have hne : withoutMark text.toList ≠ [] := hs.ne_nil (hw.getLast?_ne_text []).1
  have hmore := hs.append (fun s => (hw.getLast?_ne_text s).2) more.toList
  rw [String.toList_append, withoutMark_append hne, hmore.lex_eq]
  exact ⟨es, _, rfl, hw⟩

/-- A document with one section. -/
def secondDocument : String :=
  "<ArCompatSuppressions><Comparison Left=\"a\" Right=\"b\"/></ArCompatSuppressions>"

/-- An empty document, and behind it another one. -/
def twoDocuments : String :=
  "<ArCompatSuppressions/>" ++ secondDocument

end ApiEvolution
