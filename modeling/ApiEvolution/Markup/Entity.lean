import ApiEvolution.Text.Decimal
import ApiEvolution.Text.Pieces

/-!
# Entities

Characters with a meaning in markup are written as entities, `&lt;` for `<`. Attribute values escape
five characters, text three. Reading knows the five names and character references by number,
decimal or hexadecimal; anything else behind `&` is an error.
-/

namespace ApiEvolution.Markup

/-- Length of a text in UTF-8, the unit in which errors tell positions. -/
def byteLength : List Char → Nat
  | [] => 0
  | c :: rest => c.utf8Size + byteLength rest

/-! ## Writing -/

/-- How a character is written in text. -/
def escapeTextChar : Char → List Char
  | '<' => "&lt;".toList
  | '>' => "&gt;".toList
  | '&' => "&amp;".toList
  | c => [c]

/-- How a character is written in an attribute value. -/
def escapeAttributeChar : Char → List Char
  | '\'' => "&apos;".toList
  | '"' => "&quot;".toList
  | c => escapeTextChar c

def escapeText (s : List Char) : List Char :=
  s.flatMap escapeTextChar

def escapeAttribute (s : List Char) : List Char :=
  s.flatMap escapeAttributeChar

/-! ## Reading -/

/-- Why a character reference by number is none. -/
inductive ReferenceError where
  | sign
  | empty
  | badDigit
  | tooLarge
  | zero
  | notACodePoint (code : Nat)
deriving DecidableEq, Repr

def ReferenceError.message : ReferenceError → String
  | sign => "unexpected number sign"
  | empty => "cannot parse integer from empty string"
  | badDigit => "invalid digit found in string"
  | tooLarge => "number too large to fit in target type"
  | zero => "0x0 character is not permitted in XML"
  | notACodePoint code => "\x60" ++ Text.Decimal.render code ++ "\x60 is not a valid codepoint"

/-- Why an entity cannot be read. Positions count bytes from the beginning of the text. -/
inductive EntityError where
  /-- no semicolon before the next ampersand or the end -/
  | unterminated (start stop : Nat)
  /-- a name that stands for nothing -/
  | unknown (start stop : Nat) (name : List Char)
  | reference (cause : ReferenceError)
deriving DecidableEq, Repr

def EntityError.message : EntityError → String
  | unterminated start stop =>
    "Error while escaping character at range " ++ Text.Decimal.render start ++ ".." ++
      Text.Decimal.render stop ++ ": Cannot find ';' after '&'"
  | unknown start stop name =>
    "at " ++ Text.Decimal.render start ++ ".." ++ Text.Decimal.render stop ++
      ": unrecognized entity \x60" ++ String.ofList name ++ "\x60"
  | reference cause => "invalid character reference: " ++ cause.message

/-- The value of a digit in a base up to sixteen; letters may be small or capital. -/
def digit? (base : Nat) (c : Char) : Option Nat :=
  let n := c.toNat
  let value :=
    if 48 ≤ n ∧ n ≤ 57 then n - 48
    else if 65 ≤ n ∧ n ≤ 70 then n - 55
    else if 97 ≤ n ∧ n ≤ 102 then n - 87
    else base
  if value < base then some value else none

/-- The 32-bit number that a row of digits behind `value` makes; the first fault from the left is
told. -/
def number (base value : Nat) : List Char → Except ReferenceError Nat
  | [] => .ok value
  | c :: rest =>
    match digit? base c with
    | none => .error .badDigit
    | some d =>
      if base * value + d < UInt32.size then number base (base * value + d) rest
      else .error .tooLarge

/-- A number without a sign. -/
def unsignedNumber (base : Nat) : List Char → Except ReferenceError Nat
  | [] => .error .empty
  | c :: rest => if c = '+' ∨ c = '-' then .error .sign else number base 0 (c :: rest)

/-- The number of a reference, behind `#`: hexadecimal behind `x`. -/
def referenceNumber : List Char → Except ReferenceError Nat
  | 'x' :: rest => unsignedNumber 16 rest
  | s => unsignedNumber 10 s

/-- The character with a given code point; the code point zero is not allowed. -/
def characterOf (code : Nat) : Except ReferenceError Char :=
  if code = 0 then .error .zero
  else if code.isValidChar then .ok (Char.ofNat code)
  else .error (.notACodePoint code)

/-- The character a reference by number stands for. -/
def referencedChar (s : List Char) : Except ReferenceError Char :=
  match referenceNumber s with
  | .ok code => characterOf code
  | .error e => .error e

/-- The character a name stands for. -/
def namedChar? (name : List Char) : Option Char :=
  ([("lt", '<'), ("gt", '>'), ("amp", '&'), ("apos", '\''), ("quot", '"')].find?
    fun e => e.1.toList == name).map (·.2)

/-- The character an entity stands for; `start` is the position of its ampersand. -/
def entityChar (start : Nat) (name : List Char) : Except EntityError Char :=
  match name with
  | '#' :: code =>
    match referencedChar code with
    | .ok c => .ok c
    | .error e => .error (.reference e)
  | _ =>
    match namedChar? name with
    | some c => .ok c
    | none => .error (.unknown (start + 1) (start + 1 + byteLength name) name)

/-- Where one stands while entities are read. -/
inductive EntityState where
  /-- outside of entities -/
  | plain
  /-- behind an ampersand at position `start`, with the characters of the name in reverse -/
  | inName (start : Nat) (name : List Char)

/-- Replaces entities by the characters they stand for. `total` is the length of the whole text and
`position` that of what is behind. -/
def unescapeFrom (total : Nat) : EntityState → Nat → List Char → Except EntityError (List Char)
  | .plain, _, [] => .ok []
  | .inName start _, _, [] => .error (.unterminated start total)
  | .plain, position, c :: rest =>
    if c = '&' then
      unescapeFrom total (.inName position []) (position + c.utf8Size) rest
    else
      (unescapeFrom total .plain (position + c.utf8Size) rest).map (c :: ·)
  | .inName start name, position, c :: rest =>
    if c = '&' then
      .error (.unterminated start total)
    else if c = ';' then
      match entityChar start name.reverse with
      | .ok d => (unescapeFrom total .plain (position + c.utf8Size) rest).map (d :: ·)
      | .error e => .error e
    else
      unescapeFrom total (.inName start (c :: name)) (position + c.utf8Size) rest

/-- Replaces entities by the characters they stand for. -/
def unescape (s : List Char) : Except EntityError (List Char) :=
  unescapeFrom (byteLength s) .plain 0 s

end ApiEvolution.Markup
