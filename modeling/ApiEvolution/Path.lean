import ApiEvolution.Text.Ascii
import ApiEvolution.Text.Pieces

/-!
# File paths

A path is kept as it was given and compared by its components: repeated separators, a separator at
the end and components `.` do not count, except that a path may begin with one.
-/

namespace ApiEvolution

/-- A file path as it was given. -/
structure Path where
  text : String
deriving DecidableEq, Repr

namespace Path

/-- One step of a path. -/
inductive Component where
  /-- the separator at the beginning of an absolute path -/
  | root
  /-- the component `.` at the beginning of a relative path -/
  | here
  /-- the component `..` -/
  | parent
  | name (s : List Char)
deriving DecidableEq, Repr

/-- The components behind the beginning of a path; empty ones and `.` do not count. -/
def Component.ofPiece? (piece : List Char) : Option Component :=
  if piece = [] ∨ piece = ['.'] then none
  else if piece = ['.', '.'] then some .parent
  else some (.name piece)

/-- The components of a path. -/
def components (p : Path) : List Component :=
  let ps := Text.pieces '/' p.text.toList
  let rest := ps.filterMap Component.ofPiece?
  match p.text.toList, ps with
  | '/' :: _, _ => .root :: rest
  | _, ['.'] :: _ => .here :: rest
  | _, _ => rest

/-- The two texts lead to one file. -/
def agrees (p q : Path) : Bool :=
  p.components == q.components

/-- A file name up to its last point, unless that is its first character. -/
def stemOfName (name : List Char) : List Char :=
  match (name.reverse.dropWhile (· != '.')).drop 1 with
  | [] => name
  | stem => stem.reverse

/-- The name of the file without its extension; a path that ends in no name has none. -/
def stem? (p : Path) : Option String :=
  match p.components.getLast? with
  | some (.name s) => some (String.ofList (stemOfName s))
  | _ => none

/-! ## Laws -/

theorem agrees_refl (p : Path) : p.agrees p := by
  simp [agrees]

theorem agrees_comm (p q : Path) : p.agrees q = q.agrees p := by
  simp only [agrees, Bool.beq_comm]

theorem agrees_trans {p q r : Path} (h : p.agrees q) (h' : q.agrees r) : p.agrees r := by
  simp_all [agrees]

theorem stem?_eq_of_agrees {p q : Path} (h : p.agrees q) : p.stem? = q.stem? := by
  simp only [agrees, beq_iff_eq] at h
  simp [stem?, h]

end Path

end ApiEvolution
