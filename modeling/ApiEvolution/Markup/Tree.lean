import ApiEvolution.Markup.Entity

/-!
# Writing markup

A document is a tree of elements: branches with attributes, and leaves with text. It is written with
one element on a line, two blanks more for each level; the text of a leaf stays on its line, so no
white space is ever added to it. An element without content is written as an empty tag.
-/

namespace ApiEvolution.Markup

/-- An element. -/
inductive Tree where
  | branch (name : String) (attributes : List (String × String)) (children : List Tree)
  | leaf (name : String) (text : String)

/-- The attributes of a tag, each with a blank before it. -/
def renderAttributes (attributes : List (String × String)) : List Char :=
  attributes.flatMap fun a =>
    ' ' :: a.1.toList ++ "=\"".toList ++ escapeAttribute a.2.toList ++ ['"']

/-- A line break and the blanks in front of an element at the given depth. -/
def newline (depth : Nat) : List Char :=
  '\n' :: List.replicate (2 * depth) ' '

mutual

/-- An element without what stands in front of it. -/
def Tree.render (depth : Nat) : Tree → List Char
  | .branch name attributes [] => '<' :: name.toList ++ renderAttributes attributes ++ "/>".toList
  | .branch name attributes (child :: children) =>
    '<' :: name.toList ++ renderAttributes attributes ++ ['>'] ++
      (newline (depth + 1) ++ child.render (depth + 1) ++ Tree.renderAll (depth + 1) children) ++
      newline depth ++ "</".toList ++ name.toList ++ ['>']
  | .leaf name text =>
    if text.isEmpty then
      '<' :: name.toList ++ "/>".toList
    else
      '<' :: name.toList ++ ['>'] ++ escapeText text.toList ++ "</".toList ++ name.toList ++ ['>']

/-- Elements of one depth, each on a new line. -/
def Tree.renderAll (depth : Nat) : List Tree → List Char
  | [] => []
  | t :: rest => newline depth ++ t.render depth ++ Tree.renderAll depth rest

end

/-- What every document begins with. -/
def declaration : List Char :=
  "<?xml version=\"1.0\" encoding=\"utf-8\"?>".toList

/-- A whole document. -/
def Tree.document (t : Tree) : List Char :=
  declaration ++ newline 0 ++ t.render 0 ++ ['\n']

end ApiEvolution.Markup
