import ApiEvolution.Markup.Event

/-!
# Attributes

Attributes are read from the left, and only up to the one that is wanted; faults behind it stay
unseen. Positions count bytes from the beginning of the tag, behind its bracket.
-/

namespace ApiEvolution.Markup

/-- Why the attributes of a tag cannot be read. -/
inductive AttributeError where
  /-- the key is followed by something other than `=` -/
  | equalsExpected (position : Nat)
  /-- a key that was there before -/
  | duplicated (position previous : Nat)
  /-- nothing behind `=` -/
  | valueExpected (position : Nat)
  /-- a value that does not begin with a quote -/
  | quoteExpected (position : Nat)
  /-- a value that does not end with its quote -/
  | quoteMissing (position : Nat) (quote : Char)
  /-- a value with a bad entity -/
  | value (cause : EntityError)
deriving DecidableEq, Repr

namespace AttributeError

def placed (position : Nat) (what : String) : String :=
  "position " ++ Text.Decimal.render position ++ ": " ++ what

def message : AttributeError → String
  | equalsExpected p =>
    placed p ("attribute key must be directly followed by " ++ accented "=" ++ " or space")
  | duplicated p q =>
    placed p ("duplicated attribute, previous declaration at position " ++ Text.Decimal.render q)
  | valueExpected p => placed p (accented "=" ++ " must be followed by an attribute value")
  | quoteExpected p =>
    placed p
      ("attribute value must be enclosed in " ++ accented "\"" ++ " or " ++ accented "'")
  | quoteMissing p q =>
    placed p ("missing closing quote " ++ accented (String.singleton q) ++ " in attribute value")
  | value cause => cause.message

end AttributeError

/-- One attribute, where its key begins, and what is behind it. -/
structure AttributeStep where
  key : List Char
  position : Nat
  value : List Char
  rest : List Char

/-- The characters of a key behind its first one. -/
def isKeyChar (c : Char) : Bool :=
  !(c == '=' || isSpace c)

/-- The value behind `=`, as it is written, and what is behind its closing quote. -/
def quotedValue (total : Nat) (s : List Char) : Except AttributeError (List Char × List Char) :=
  match s.dropWhile isSpace with
  | [] => .error (.valueExpected total)
  | q :: rest =>
    if q = '"' ∨ q = '\'' then
      match rest.dropWhile (· != q) with
      | [] => .error (.quoteMissing total q)
      | _ :: behind => .ok (rest.takeWhile (· != q), behind)
    else
      .error (.quoteExpected (total - byteLength (q :: rest)))

/-- Reads the key and the `=` of the next attribute: the key, its position, and what is behind
`=`. -/
def keyStep? (total : Nat) (s : List Char) :
    Except AttributeError (Option (List Char × Nat × List Char)) :=
  match s.dropWhile isSpace with
  | [] => .ok none
  | k :: rest =>
    let key := k :: rest.takeWhile isKeyChar
    let position := total - byteLength (k :: rest)
    match (rest.dropWhile isKeyChar).dropWhile isSpace with
    | '=' :: behind => .ok (some (key, position, behind))
    | behind => .error (.equalsExpected (total - byteLength behind))

/-- Reads the next attribute; `seen` are the keys before it and their positions. -/
def attributeStep? (total : Nat) (seen : List (List Char × Nat)) (s : List Char) :
    Except AttributeError (Option AttributeStep) :=
  match keyStep? total s with
  | .error e => .error e
  | .ok none => .ok none
  | .ok (some (key, position, behind)) =>
    match seen.lookup key with
    | some previous => .error (.duplicated position previous)
    | none =>
      match quotedValue total behind with
      | .error e => .error e
      | .ok (value, rest) => .ok (some ⟨key, position, value, rest⟩)

/-! ## Every attribute takes some of the tag -/

theorem length_dropWhile_le (p : Char → Bool) (s : List Char) :
    (s.dropWhile p).length ≤ s.length :=
  (List.dropWhile_suffix p).length_le

theorem quotedValue_length {total : Nat} {s value rest : List Char}
    (h : quotedValue total s = .ok (value, rest)) : rest.length < s.length := by
  unfold quotedValue at h
  split at h
  · cases h
  · next q behind hq =>
    have h1 := length_dropWhile_le isSpace s
    rw [hq] at h1
    split at h
    · split at h
      · cases h
      · next _ after ha =>
        cases h
        have h2 := length_dropWhile_le (· != q) behind
        rw [ha] at h2
        simp only [List.length_cons] at h1 h2
        omega
    · cases h

theorem keyStep?_length {total : Nat} {s key rest : List Char} {position : Nat}
    (h : keyStep? total s = .ok (some (key, position, rest))) : rest.length < s.length := by
  unfold keyStep? at h
  split at h
  · cases h
  · next k behind hk =>
    have h1 := length_dropWhile_le isSpace s
    rw [hk] at h1
    split at h
    · next after ha =>
      cases h
      have h2 := length_dropWhile_le isKeyChar behind
      have h3 := length_dropWhile_le isSpace (behind.dropWhile isKeyChar)
      rw [ha] at h3
      simp only [List.length_cons] at h1 h3
      omega
    · cases h

theorem attributeStep?_length {total : Nat} {seen : List (List Char × Nat)} {s : List Char}
    {a : AttributeStep} (h : attributeStep? total seen s = .ok (some a)) :
    a.rest.length < s.length := by
  unfold attributeStep? at h
  split at h
  · cases h
  · cases h
  · next hk =>
    have h1 := keyStep?_length hk
    split at h
    · cases h
    · split at h
      · cases h
      · next hq =>
        cases h
        have h2 := quotedValue_length hq
        simp only
        omega

/-! ## Finding an attribute -/

/-- The value of the first attribute with a given key, as it is written. -/
def rawAttribute? (total : Nat) (wanted : List Char) (seen : List (List Char × Nat))
    (s : List Char) : Except AttributeError (Option (List Char)) :=
  match _h : attributeStep? total seen s with
  | .error e => .error e
  | .ok none => .ok none
  | .ok (some a) =>
    if a.key = wanted then .ok (some a.value)
    else rawAttribute? total wanted ((a.key, a.position) :: seen) a.rest
termination_by s.length
decreasing_by exact attributeStep?_length _h

/-- The value of an attribute of a tag, if the tag has it. -/
def Tag.attribute? (t : Tag) (wanted : String) : Except AttributeError (Option String) :=
  match rawAttribute? (byteLength t.content) wanted.toList [] (t.content.drop t.name.length) with
  | .error e => .error e
  | .ok none => .ok none
  | .ok (some value) =>
    match unescape value with
    | .ok s => .ok (some (String.ofList s))
    | .error e => .error (.value e)

end ApiEvolution.Markup
