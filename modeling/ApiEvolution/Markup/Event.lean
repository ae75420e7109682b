import ApiEvolution.Markup.Entity

/-!
# Events of a markup text

A markup text is read as a sequence of events: tags, text, character data, and everything that says
nothing about the content (comments, declarations, processing instructions). The sequence ends with
the text or with the first fault of syntax, so a fault counts only for those who read that far.

`lex` knows single events; `checkNesting` matches closing tags with opening ones.
-/

namespace ApiEvolution.Markup

/-! ## Faults -/

/-- Why a text is no markup. -/
inductive SyntaxError where
  | characterDataNotClosed
  | commentNotClosed
  | documentTypeNotClosed
  | instructionNotClosed
  | tagNotClosed
  | unknownMarkup
  | documentTypeWithoutName
  /-- a closing tag that does not match the innermost open one -/
  | mismatchedTag (expected found : List Char)
  /-- a closing tag where nothing is open -/
  | unmatchedTag (found : List Char)
  /-- the text ends within an element that is passed over -/
  | elementNotClosed (name : List Char)
deriving DecidableEq, Repr

/-- A text between grave accents. -/
def accented (s : String) : String :=
  "\x60" ++ s ++ "\x60"

namespace SyntaxError

def notClosed (what closing : String) : String :=
  "syntax error: " ++ what ++ " not closed: " ++ accented closing ++
    " not found before end of input"

def message : SyntaxError → String
  | characterDataNotClosed => notClosed "CDATA" "]]>"
  | commentNotClosed => notClosed "comment" "-->"
  | documentTypeNotClosed => notClosed "DOCTYPE" ">"
  | instructionNotClosed => notClosed "processing instruction or xml declaration" "?>"
  | tagNotClosed => notClosed "tag" ">"
  | unknownMarkup => "syntax error: unknown or missed symbol in markup"
  | documentTypeWithoutName =>
    "ill-formed document: " ++ accented "<!DOCTYPE>" ++
      " declaration does not contain a name of a document type"
  | mismatchedTag expected found =>
    "ill-formed document: expected " ++ accented ("</" ++ String.ofList expected ++ ">") ++
      ", but " ++ accented ("</" ++ String.ofList found ++ ">") ++ " was found"
  | unmatchedTag found =>
    "ill-formed document: close tag " ++ accented ("</" ++ String.ofList found ++ ">") ++
      " does not match any open tag"
  | elementNotClosed name =>
    "ill-formed document: start tag not closed: " ++ accented ("</" ++ String.ofList name ++ ">") ++
      " not found before end of input"

end SyntaxError

/-! ## Events -/

/-- What stands between the brackets of an opening or empty tag: name and attributes. -/
structure Tag where
  content : List Char
deriving DecidableEq, Repr

/-- White space of markup. -/
def isSpace (c : Char) : Bool :=
  c == ' ' || c == '\t' || c == '\r' || c == '\n'

/-- All up to the first white space, possibly nothing. -/
def Tag.name (t : Tag) : List Char :=
  t.content.takeWhile fun c => !isSpace c

/-- One event. -/
inductive Event where
  | opening (tag : Tag)
  | empty (tag : Tag)
  | closing (name : List Char)
  | text (s : List Char)
  | characterData (s : List Char)
  /-- comment, declaration, document type or processing instruction -/
  | ignored
deriving DecidableEq, Repr

/-- The events of a text, up to its end or its first fault. -/
inductive Events where
  | done
  | fault (e : SyntaxError)
  | next (e : Event) (rest : Events)
deriving DecidableEq, Repr

/-! ## Single events -/

/-- The beginning of the text up to the first `>` that `stop` accepts, given what is before it in
reverse order, and what is behind that `>`. -/
def upToBracket (stop : List Char → Bool) (seen : List Char) :
    List Char → Option (List Char × List Char)
  | [] => none
  | c :: rest =>
    if c = '>' ∧ stop seen then some (seen.reverse, rest) else upToBracket stop (c :: seen) rest

/-- As `upToBracket`, up to the `>` that no `<` before it belongs to. -/
def upToMatching (depth : Nat) (seen : List Char) : List Char → Option (List Char × List Char)
  | [] => none
  | c :: rest =>
    if c = '<' then upToMatching (depth + 1) (c :: seen) rest
    else if c = '>' then
      match depth with
      | 0 => some (seen.reverse, rest)
      | depth + 1 => upToMatching depth (c :: seen) rest
    else upToMatching depth (c :: seen) rest

/-- As `upToBracket`, up to the `>` that stands outside quotes; `quote` is the open one. -/
def upToUnquoted (quote : Option Char) (seen : List Char) :
    List Char → Option (List Char × List Char)
  | [] => none
  | c :: rest =>
    match quote with
    | none =>
      if c = '>' then some (seen.reverse, rest)
      else upToUnquoted (if c = '"' ∨ c = '\'' then some c else none) (c :: seen) rest
    | some q => upToUnquoted (if c = q then none else some q) (c :: seen) rest

/-- Reading one event: none is left, there is a fault, or an event and the rest. -/
inductive Step where
  | done
  | fault (e : SyntaxError)
  | event (e : Event) (rest : List Char)
deriving DecidableEq, Repr

/-- The text without a given beginning, up to the case of letters `A` to `Z`. -/
def afterFolded? (start : String) (s : List Char) : Option (List Char) :=
  if (s.take start.length).map (fun c => if c.toNat < 128 then c.toLower else c) = start.toList then
    some (s.drop start.length)
  else none

/-- What was read since the `!`, last character first, ends a comment: the two dashes that opened it
do not close it. -/
def closesComment (seen : List Char) : Bool :=
  "--".toList.isPrefixOf seen && 5 ≤ seen.length

/-- Behind `<!`: character data, a comment or a document type. The text begins at the `!`. -/
def stepBang (s : List Char) : Step :=
  match s.drop 1 with
  | '[' :: _ =>
    match upToBracket (fun seen => "]]".toList.isPrefixOf seen) [] s with
    | some (content, rest) =>
      if "![CDATA[".toList.isPrefixOf content then
        .event (.characterData ((content.drop 8).take (content.length - 10))) rest
      else .fault .characterDataNotClosed
    | none => .fault .characterDataNotClosed
  | '-' :: _ =>
    match upToBracket closesComment [] s with
    | some (content, rest) =>
      if "!--".toList.isPrefixOf content then .event .ignored rest else .fault .commentNotClosed
    | none => .fault .commentNotClosed
  | 'D' :: _ | 'd' :: _ =>
    match upToMatching 0 [] s with
    | some (content, rest) =>
      match afterFolded? "!doctype" content with
      | some name =>
        if name.all isSpace then .fault .documentTypeWithoutName else .event .ignored rest
      | none => .fault .documentTypeNotClosed
    | none => .fault .documentTypeNotClosed
  | _ => .fault .unknownMarkup

/-- Behind `<?`: a declaration or processing instruction. The text begins at the `?`. -/
def stepInstruction (s : List Char) : Step :=
  match upToBracket (fun seen => seen.head? == some '?') [] s with
  | some (content, rest) =>
    if content.length ≤ 1 then .fault .instructionNotClosed else .event .ignored rest
  | none => .fault .instructionNotClosed

/-- The name of a closing tag: white space at its end does not count, unless there is nothing
else. -/
def closingName (s : List Char) : List Char :=
  match s.reverse.dropWhile isSpace with
  | [] => s
  | name => name.reverse

/-- Behind `<`: a tag. -/
def stepTag (s : List Char) : Step :=
  match upToUnquoted none [] s with
  | none => .fault .tagNotClosed
  | some ('/' :: name, rest) => .event (.closing (closingName name)) rest
  | some (content, rest) =>
    if content.getLast? = some '/' then .event (.empty ⟨content.dropLast⟩) rest
    else .event (.opening ⟨content⟩) rest

/-- Reads one event. -/
def step : List Char → Step
  | [] => .done
  | '<' :: s =>
    match s with
    | '!' :: _ => stepBang s
    | '?' :: _ => stepInstruction s
    | _ => stepTag s
  | s => .event (.text (s.takeWhile (· != '<'))) (s.dropWhile (· != '<'))

/-! ## Every event takes some of the text -/

theorem upToBracket_length {stop : List Char → Bool} {seen s content rest : List Char}
    (h : upToBracket stop seen s = some (content, rest)) : rest.length < s.length := by
  induction s generalizing seen with
  | nil => simp [upToBracket] at h
  | cons c s ih =>
    unfold upToBracket at h
    split at h
    · simp only [Option.some.injEq, Prod.mk.injEq] at h
      simp [← h.2]
    · have := ih h
      simp only [List.length_cons]
      omega

theorem upToMatching_length {depth : Nat} {seen s content rest : List Char}
    (h : upToMatching depth seen s = some (content, rest)) : rest.length < s.length := by
  induction s generalizing depth seen with
  | nil => simp [upToMatching] at h
  | cons c s ih =>
    unfold upToMatching at h
    simp only [List.length_cons]
    split at h
    · have := ih h; omega
    · split at h
      · split at h
        · simp only [Option.some.injEq, Prod.mk.injEq] at h
          simp [← h.2]
        · have := ih h; omega
      · have := ih h; omega

theorem upToUnquoted_length {quote : Option Char} {seen s content rest : List Char}
    (h : upToUnquoted quote seen s = some (content, rest)) : rest.length < s.length := by
  induction s generalizing quote seen with
  | nil => simp [upToUnquoted] at h
  | cons c s ih =>
    unfold upToUnquoted at h
    simp only [List.length_cons]
    split at h
    · split at h
      · simp only [Option.some.injEq, Prod.mk.injEq] at h
        simp [← h.2]
      · have := ih h; omega
    · have := ih h; omega

theorem stepBang_length {s rest : List Char} {e : Event} (h : stepBang s = .event e rest) :
    rest.length < s.length := by
  unfold stepBang at h
  split at h
  · split at h
    · next _ _ hu =>
      split at h
      · cases h; exact upToBracket_length hu
      · cases h
    · cases h
  · split at h
    · next _ _ hu =>
      split at h
      · cases h; exact upToBracket_length hu
      · cases h
    · cases h
  all_goals
    first
    | cases h
    | split at h
      · next _ _ hu =>
        split at h
        · split at h
          · cases h
          · cases h; exact upToMatching_length hu
        · cases h
      · cases h

theorem step_length {s rest : List Char} {e : Event} (h : step s = .event e rest) :
    rest.length < s.length := by
  unfold step at h
  split at h
  · cases h
  · next s =>
    simp only [List.length_cons]
    split at h
    · have := stepBang_length h; omega
    · unfold stepInstruction at h
      split at h
      · next _ _ hu =>
        split at h
        · cases h
        · cases h
          have := upToBracket_length hu
          omega
      · cases h
    · unfold stepTag at h
      split at h
      · cases h
      · next _ _ hu => cases h; have := upToUnquoted_length hu; omega
      · next _ _ _ hu =>
        have := upToUnquoted_length hu
        split at h <;> cases h <;> omega
  · next hs hn =>
    cases h
    cases s with
    | nil => exact absurd rfl hs
    | cons c s =>
      have hc : c ≠ '<' := fun e => hn s (by rw [e])
      have := (List.dropWhile_suffix (l := s) (· != '<')).length_le
      simp only [List.dropWhile_cons, bne_iff_ne, ne_eq, hc, not_false_eq_true, ↓reduceIte,
        List.length_cons]
      omega

/-! ## All events -/

/-- The events of a text, each by itself. -/
def lex (s : List Char) : Events :=
  match _h : step s with
  | .done => .done
  | .fault e => .fault e
  | .event e rest => .next e (lex rest)
termination_by s.length
decreasing_by exact step_length _h

/-- The events up to the first closing tag that does not match; `names` are those of the open tags,
the innermost first. -/
def checkNesting : List (List Char) → Events → Events
  | _, .done => .done
  | _, .fault e => .fault e
  | names, .next (.opening t) rest => .next (.opening t) (checkNesting (t.name :: names) rest)
  | [], .next (.closing n) _ => .fault (.unmatchedTag n)
  | m :: names, .next (.closing n) rest =>
    if m = n then .next (.closing n) (checkNesting names rest) else .fault (.mismatchedTag m n)
  | names, .next e rest => .next e (checkNesting names rest)

/-- The text without the mark U+FEFF at its beginning. -/
def withoutMark : List Char → List Char
  | '\uFEFF' :: s => s
  | s => s

/-- The events of a text. -/
def events (s : List Char) : Events :=
  checkNesting [] (lex (withoutMark s))

end ApiEvolution.Markup
