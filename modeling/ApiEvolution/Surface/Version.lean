import ApiEvolution.Text.Blank
import ApiEvolution.Text.Decimal
import ApiEvolution.Text.Pieces

/-!
# Version numbers

An assembly version has four 16-bit parts. The reader takes one to four parts, each padded with
blanks as one likes, and fills up with zeros; `Version.render` writes all four.
-/

namespace ApiEvolution

/-- Version of an assembly, compared part by part from the left. -/
structure Version where
  major : UInt16
  minor : UInt16
  build : UInt16
  revision : UInt16
deriving DecidableEq, Repr

/-- Why a text is no version number. -/
inductive VersionError where
  /-- more than four parts -/
  | tooManyParts (text : String)
  /-- a part that is no 16-bit number -/
  | badPart (part : String)
deriving DecidableEq, Repr

def VersionError.message : VersionError → String
  | tooManyParts text => "Invalid version format: " ++ text
  | badPart part => "Invalid version component: " ++ part

namespace Version

/-- The version `0.0.0.0`, meant where none is given. -/
def zero : Version := ⟨0, 0, 0, 0⟩

/-- The parts in order of their weight. -/
def parts (v : Version) : List Nat :=
  [v.major.toNat, v.minor.toNat, v.build.toNat, v.revision.toNat]

/-- The four parts with points between them. -/
def render (v : Version) : String :=
  Text.joined "." (v.parts.map Text.Decimal.render)

/-- One part: a 16-bit number between blanks. -/
def readPart (part : List Char) : Except VersionError UInt16 :=
  match Text.Decimal.read? UInt16.size (Text.trim part) with
  | some n => .ok (UInt16.ofNat n)
  | none => .error (.badPart (String.ofList part))

/-- The version with the given leading parts, the others being zero. -/
def ofParts (ps : List UInt16) : Version :=
  ⟨ps.getD 0 0, ps.getD 1 0, ps.getD 2 0, ps.getD 3 0⟩

/-- Reads one to four parts between points; the first bad part is reported. -/
def parse (text : List Char) : Except VersionError Version :=
  let ps := Text.pieces '.' text
  if ps.length ≤ 4 then
    (ps.mapM readPart).map ofParts
  else
    .error (.tooManyParts (String.ofList text))

/-- The order of versions: the first differing part decides. -/
def order (v w : Version) : Ordering :=
  (List.zipWith (fun a b => compareOfLessAndEq a b) v.parts w.parts).foldr Ordering.then .eq

end Version

end ApiEvolution
