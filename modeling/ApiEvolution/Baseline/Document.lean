import ApiEvolution.Baseline.Basic
import ApiEvolution.Markup.Attribute
import ApiEvolution.Markup.Tree

/-!
# The written form of a baseline

A baseline is written as a document with one element for each section and in it one for each
suppression, whose tag and message are the texts of two leaves. `Baseline.render` writes the sorted
baseline; `Baseline.read` reads a document event by event, `Reading` being what it has come to.

The reader is strict about elements, text and character data where a suppression could get lost, and
passes over what is unknown inside a suppression. What stands behind the root element is not read.
-/

namespace ApiEvolution

namespace Document

def rootName : String := "ArCompatSuppressions"
def sectionName : String := "Comparison"
def suppressionName : String := "Suppression"
def leftName : String := "Left"
def rightName : String := "Right"
def changeName : String := "DifferenceType"

/-- The two texts of a suppression. -/
inductive Field where
  | typeName
  | message
deriving DecidableEq, Repr

def Field.name : Field → String
  | typeName => "TypeName"
  | message => "Message"

/-- The field of an element with this name. -/
def Field.ofName? (name : List Char) : Option Field :=
  [typeName, message].find? fun f => f.name.toList == name

end Document

/-! ## Writing -/

open Document in
/-- The element of a suppression; a text that is absent has no leaf. -/
def Suppression.toTree (s : Suppression) : Markup.Tree :=
  .branch suppressionName [(changeName, s.change.render)]
    ((s.typeName.map (Markup.Tree.leaf Field.typeName.name)).toList ++
      (s.message.map (Markup.Tree.leaf Field.message.name)).toList)

open Document in
def Section.toTree (s : Section) : Markup.Tree :=
  .branch sectionName [(leftName, s.left), (rightName, s.right)] (s.suppressions.map (·.toTree))

open Document in
def Baseline.toTree (b : Baseline) : Markup.Tree :=
  .branch rootName [] (b.sections.map (·.toTree))

/-- The written form: the same text for baselines that are the same when sorted. -/
def Baseline.render (b : Baseline) : String :=
  String.ofList b.sorted.toTree.document

/-! ## Faults -/

namespace Document

/-- Why a text is no baseline. -/
inductive Fault where
  | syntaxFault (cause : Markup.SyntaxError)
  | attributeFault (cause : Markup.AttributeError)
  | entityFault (cause : Markup.EntityError)
  /-- another element than the one that can stand there -/
  | wrongElement (expected : String) (found : List Char)
  /-- text where only elements can stand -/
  | textInside (place : String)
  /-- character data where only elements can stand -/
  | characterData (place : String)
  | closingBeforeRoot
  | noRoot
  /-- the text ends within an element -/
  | endInside (element : String)
  /-- an element where only text can stand -/
  | elementInside (element : String)
  | unknownChange (text : String)
  | missingAttribute (element : List Char) (key : String)
deriving DecidableEq, Repr

/-- A text between apostrophes. -/
def quoted (s : String) : String :=
  "'" ++ s ++ "'"

def Fault.message : Fault → String
  | syntaxFault e => "Invalid suppression XML: " ++ e.message
  | attributeFault e => "Invalid suppression XML: " ++ e.message
  | entityFault e => "Invalid suppression XML: " ++ e.message
  | wrongElement expected found =>
    "Expected element " ++ quoted expected ++ ", found " ++ quoted (String.ofList found)
  | textInside place => "Unexpected text inside " ++ quoted place
  | characterData place => "Unexpected character data " ++ place
  | closingBeforeRoot => "Unexpected closing tag before root element"
  | noRoot => "Suppression file has no " ++ quoted rootName ++ " root element"
  | endInside element => "Unexpected end of file inside " ++ quoted element
  | elementInside element => "Unexpected element inside " ++ quoted element
  | unknownChange text => "Unknown " ++ changeName ++ " " ++ quoted text
  | missingAttribute element key =>
    "Element " ++ quoted (String.ofList element) ++ " is missing the required " ++ quoted key ++
      " attribute"

/-! ## Reading -/

/-- Where the reader stands, and what it has read so far. -/
inductive Reading where
  /-- before the root element -/
  | outside
  | inRoot (sections : List Section)
  | inSection (sections : List Section) (s : Section)
  | inSuppression (sections : List Section) (s : Section) (x : Suppression)
  /-- in a text, of which `text` is read -/
  | inField (sections : List Section) (s : Section) (x : Suppression) (f : Field) (text : List Char)
  /-- in an unknown element of the given name, with `depth` elements open inside it -/
  | inUnknown (sections : List Section) (s : Section) (x : Suppression) (name : List Char)
      (depth : Nat)
  /-- behind the root element -/
  | finished (b : Baseline)

/-- White space as it may stand between elements. -/
def isLayout (s : List Char) : Bool :=
  s.all fun c => Markup.isSpace c || c == '\x0c'

/-- An attribute that has to be there. -/
def required (t : Markup.Tag) (name : String) : Except Fault String :=
  match t.attribute? name with
  | .error e => .error (.attributeFault e)
  | .ok none => .error (.missingAttribute t.name name)
  | .ok (some value) => .ok value

/-- The element has to have this name. -/
def expectName (expected : String) (t : Markup.Tag) : Except Fault Unit :=
  if t.name = expected.toList then .ok () else .error (.wrongElement expected t.name)

/-- The section that a tag opens. -/
def sectionOf (t : Markup.Tag) : Except Fault Section := do
  expectName sectionName t
  return ⟨← required t leftName, ← required t rightName, []⟩

/-- The suppression that a tag opens. -/
def suppressionOf (t : Markup.Tag) : Except Fault Suppression := do
  expectName suppressionName t
  let text ← required t changeName
  match Change.ofText? text with
  | some change => return ⟨change, none, none⟩
  | none => throw (.unknownChange text)

/-- Enters a text; the first one of its kind counts. -/
def fill (x : Suppression) (f : Field) (text : String) : Suppression :=
  match f with
  | .typeName => { x with typeName := x.typeName.or (some text) }
  | .message => { x with message := x.message.or (some text) }

/-- Adds a suppression to a section. -/
def addTo (s : Section) (x : Suppression) : Section :=
  { s with suppressions := s.suppressions ++ [x] }

/-- Text between elements has to be layout. -/
def layout (place : String) (s : List Char) (state : Reading) : Except Fault Reading :=
  if isLayout s then .ok state else .error (.textInside place)

open Reading in
/-- What the reader comes to by one event. -/
def advance : Reading → Markup.Event → Except Fault Reading
  | finished b, _ => .ok (finished b)
  -- unknown elements are passed over
  | inUnknown ss s x n d, .opening _ => .ok (inUnknown ss s x n (d + 1))
  | inUnknown ss s x _ 0, .closing _ => .ok (inSuppression ss s x)
  | inUnknown ss s x n (d + 1), .closing _ => .ok (inUnknown ss s x n d)
  | inUnknown ss s x n d, _ => .ok (inUnknown ss s x n d)
  -- comments and the like say nothing
  | state, .ignored => .ok state
  -- before the root element
  | outside, .opening t => do
    expectName rootName t
    return inRoot []
  | outside, .empty t => do
    expectName rootName t
    return finished ⟨[]⟩
  | outside, .text s => layout "before root element" s outside
  | outside, .characterData _ => .error (.characterData "before root element")
  | outside, .closing _ => .error .closingBeforeRoot
  -- between sections
  | inRoot ss, .opening t => do return inSection ss (← sectionOf t)
  | inRoot ss, .empty t => do return inRoot (ss ++ [← sectionOf t])
  | inRoot ss, .text s => layout rootName s (inRoot ss)
  | inRoot _, .characterData _ => .error (.characterData ("inside " ++ quoted rootName))
  | inRoot ss, .closing _ => .ok (finished ⟨ss⟩)
  -- between suppressions
  | inSection ss s, .opening t => do return inSuppression ss s (← suppressionOf t)
  | inSection ss s, .empty t => do return inSection ss (addTo s (← suppressionOf t))
  | inSection ss s, .text text => layout sectionName text (inSection ss s)
  | inSection _ _, .characterData _ => .error (.characterData ("inside " ++ quoted sectionName))
  | inSection ss s, .closing _ => .ok (inRoot (ss ++ [s]))
  -- between the texts of a suppression
  | inSuppression ss s x, .opening t =>
    match Field.ofName? t.name with
    | some f => .ok (inField ss s x f [])
    | none => .ok (inUnknown ss s x t.name 0)
  | inSuppression ss s x, .empty t =>
    match Field.ofName? t.name with
    | some f => .ok (inSuppression ss s (fill x f ""))
    | none => .ok (inSuppression ss s x)
  | inSuppression ss s x, .text text => layout suppressionName text (inSuppression ss s x)
  | inSuppression _ _ _, .characterData _ =>
    .error (.characterData ("inside " ++ quoted suppressionName))
  | inSuppression ss s x, .closing _ => .ok (inSection ss (addTo s x))
  -- in a text
  | inField ss s x f text, .text more =>
    match Markup.unescape more with
    | .ok more => .ok (inField ss s x f (text ++ more))
    | .error e => .error (.entityFault e)
  | inField ss s x f text, .characterData more => .ok (inField ss s x f (text ++ more))
  | inField _ _ _ f _, .opening _ => .error (.elementInside f.name)
  | inField _ _ _ f _, .empty _ => .error (.elementInside f.name)
  | inField ss s x f text, .closing _ =>
    .ok (inSuppression ss s (fill x f (String.ofList text)))

open Reading in
/-- What was read when the text ends. -/
def atEnd : Reading → Except Fault Baseline
  | finished b => .ok b
  | outside => .error .noRoot
  | inRoot _ => .error (.endInside rootName)
  | inSection _ _ => .error (.endInside sectionName)
  | inSuppression _ _ _ => .error (.endInside suppressionName)
  | inField _ _ _ f _ => .error (.endInside f.name)
  | inUnknown _ _ _ name _ => .error (.syntaxFault (.elementNotClosed name))

/-- Reads events until the root element is closed or there is a fault. -/
def readEvents : Reading → Markup.Events → Except Fault Baseline
  | .finished b, _ => .ok b
  | state, .done => atEnd state
  | _, .fault e => .error (.syntaxFault e)
  | state, .next e rest =>
    match advance state e with
    | .ok state => readEvents state rest
    | .error fault => .error fault

end Document

/-- Reads the written form of a baseline. -/
def Baseline.read (text : String) : Except Document.Fault Baseline :=
  Document.readEvents .outside (Markup.events text.toList)

end ApiEvolution
