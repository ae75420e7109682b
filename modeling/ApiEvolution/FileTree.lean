import ApiEvolution.Path

/-!
# File trees

The files below a working directory, as a value: every operation gives a new tree, and a failing one
gives none. Paths are followed step by step, so `..` leads out of a directory only if that directory
exists.
-/

namespace ApiEvolution

/-- Why a file cannot be read or written. -/
inductive FileError where
  | notFound
  | isADirectory
  | notADirectory
  /-- the content is no text -/
  | invalidData
  | storageFull
deriving DecidableEq, Repr

def FileError.render : FileError → String
  | notFound => "NotFound"
  | isADirectory => "IsADirectory"
  | notADirectory => "NotADirectory"
  | invalidData => "InvalidData"
  | storageFull => "StorageFull"

/-- What stands under a name. -/
inductive FileNode where
  | directory
  | text (content : String)
  /-- content that is no text -/
  | bytes (content : List UInt8)
deriving DecidableEq, Repr

/-- The names that lead from the working directory to a file. -/
abbrev Location := List String

/-- Everything below a working directory. -/
structure FileTree where
  entries : List (Location × FileNode)

namespace FileTree

def empty : FileTree := ⟨[]⟩

/-- What stands at a location; the working directory is there always. -/
def node? (t : FileTree) (l : Location) : Option FileNode :=
  if l = [] then some .directory else t.entries.lookup l

/-- Puts something at a location, in place of what was there. -/
def put (t : FileTree) (l : Location) (n : FileNode) : FileTree :=
  ⟨(l, n) :: t.entries.filter (·.1 != l)⟩

/-! ## Following paths -/

/-- Follows the pieces of a path from a directory; the last name need not exist. -/
def follow (t : FileTree) : Location → List (List Char) → Except FileError Location
  | here, [] => .ok here
  | here, piece :: rest =>
    match t.node? here with
    | none => .error .notFound
    | some .directory =>
      if piece = [] ∨ piece = ['.'] then t.follow here rest
      else if piece = ['.', '.'] then
        match here with
        | [] => .error .notFound
        | _ :: _ => t.follow here.dropLast rest
      else t.follow (here ++ [String.ofList piece]) rest
    | some _ => .error .notADirectory

/-- Where a relative path leads. -/
def locate (t : FileTree) (p : Path) : Except FileError Location :=
  match p.text.toList with
  | [] | '/' :: _ => .error .notFound
  | s => t.follow [] (Text.pieces '/' s)

/-! ## Reading and writing -/

/-- The path leads to something. -/
def contains (t : FileTree) (p : Path) : Bool :=
  match t.locate p with
  | .ok l => (t.node? l).isSome
  | .error _ => false

/-- The text of a file. -/
def read (t : FileTree) (p : Path) : Except FileError String :=
  match t.locate p with
  | .error e => .error e
  | .ok l =>
    match t.node? l with
    | none => .error .notFound
    | some .directory => .error .isADirectory
    | some (.bytes _) => .error .invalidData
    | some (.text content) => .ok content

/-- A path without the separators at its end. -/
def withoutEnd (p : Path) : Path :=
  ⟨String.ofList ((p.text.toList.reverse.dropWhile (· == '/')).reverse)⟩

/-- Writes a file in an existing directory. A path that ends in a separator is no file. -/
def write (t : FileTree) (p : Path) (content : String) : Except FileError FileTree :=
  match t.locate (withoutEnd p) with
  | .error e => .error e
  | .ok l =>
    if t.node? l = some .directory ∨ withoutEnd p ≠ p then .error .isADirectory
    else .ok (t.put l (.text content))

/-- Adds a file or directory together with the directories it is in. -/
def add (t : FileTree) (p : Path) (n : FileNode) : FileTree :=
  let names := p.components.filterMap fun
    | .name s => some (String.ofList s)
    | _ => none
  let parents := (List.range names.length).map names.take
  (parents.foldl (fun t l => if (t.node? l).isSome then t else t.put l .directory) t).put names n

/-! ## Laws -/

theorem node?_put_same (t : FileTree) {l : Location} (h : l ≠ []) (n : FileNode) :
    (t.put l n).node? l = some n := by
  simp [node?, put, h]

theorem lookup_filter_ne (entries : List (Location × FileNode)) {l m : Location} (h : m ≠ l) :
    (entries.filter (·.1 != l)).lookup m = entries.lookup m := by
  induction entries with
  | nil => rfl
  | cons e rest ih =>
    obtain ⟨k, n⟩ := e
    by_cases hk : k = l
    · have hm : (m == k) = false := by simpa [hk] using h
      rw [List.filter_cons_of_neg (by simp [hk]), ih, List.lookup_cons, hm]
    · rw [List.filter_cons_of_pos (by simp [hk]), List.lookup_cons, List.lookup_cons, ih]

theorem node?_put_of_ne (t : FileTree) {l m : Location} (h : m ≠ l) (n : FileNode) :
    (t.put l n).node? m = t.node? m := by
  unfold node?
  split
  · rfl
  · have hm : (m == l) = false := beq_eq_false_iff_ne.2 h
    simp only [put, List.lookup_cons, hm, lookup_filter_ne _ h]

end FileTree

end ApiEvolution
