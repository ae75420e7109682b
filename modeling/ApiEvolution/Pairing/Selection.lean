import ApiEvolution.Fingerprint

/-!
# What takes part in a comparison

A `Selection` says which types and which members are compared, by which notion of identity they are
paired, and by which hash they are sorted into buckets.
-/

namespace ApiEvolution

/-- The part of a surface that is compared, and how. -/
structure Selection where
  includesType : TypeDefinition → Bool
  includesMember : Member → Bool
  comparer : Comparer
  hash : HashFunction

namespace Selection

/-- Everything that code outside the assembly can use, whatever the version. -/
def visible : Selection where
  includesType := TypeDefinition.isVisible
  includesMember := Member.isVisible
  comparer := .agnostic
  hash := .mixing

/-- Every type and every member. -/
def everything : Selection :=
  { visible with includesType := fun _ => true, includesMember := fun _ => true }

/-- No type and no member. -/
def nothing : Selection :=
  { visible with includesType := fun _ => false, includesMember := fun _ => false }

/-- Every type, but no member. -/
def typesOnly : Selection :=
  { nothing with includesType := fun _ => true }

/-- `part` stands somewhere in `text`. -/
def occursIn (part : List Char) : List Char → Bool
  | [] => part.isEmpty
  | c :: rest => part.isPrefixOf (c :: rest) || occursIn part rest

/-- Everything visible but what has `text` in its full name. -/
def visibleExcept (text : String) : Selection :=
  { visible with
    includesType := fun t => t.isVisible && !occursIn text.toList t.fullName.toList
    includesMember := fun m => m.isVisible && !occursIn text.toList m.fullName.toList }

def withComparer (c : Comparer) (s : Selection) : Selection :=
  { s with comparer := c }

end Selection

end ApiEvolution
