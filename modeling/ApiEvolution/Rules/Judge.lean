import ApiEvolution.Rules.Constraints
import ApiEvolution.Rules.Sealing

/-!
# Judging a tree

Every rule sees every pair of types and every pair of members. The differences come in the order of
the tree: for each type node those about the type, then those about its members; for one node in the
order of the rules.
-/

namespace ApiEvolution

/-- A rule that new builds have to keep. -/
inductive Rule where
  | sealing
  | genericConstraints
deriving DecidableEq, Repr

/-- What a rule has found: differences, and pairs it could not judge. -/
structure Verdict where
  differences : List Difference
  diagnostics : List Diagnostic

namespace Verdict

def empty : Verdict := ⟨[], []⟩

def append (v w : Verdict) : Verdict :=
  ⟨v.differences ++ w.differences, v.diagnostics ++ w.diagnostics⟩

/-- What several rules or pairs have led to, in order. -/
def concat (vs : List Verdict) : Verdict :=
  ⟨vs.flatMap (·.differences), vs.flatMap (·.diagnostics)⟩

end Verdict

namespace Rule

def all : List Rule := [sealing, genericConstraints]

def name : Rule → String
  | sealing => "CannotSealType"
  | genericConstraints => "CannotChangeGenericConstraints"

def ofName? (name : String) : Option Rule :=
  all.find? (·.name == name)

/-- What the rule says about a pair of types. -/
def onTypes (c : Comparer) (left right : TypeDefinition) : Rule → Verdict
  | sealing => ⟨Rules.sealing left right, []⟩
  | genericConstraints =>
    let found := Rules.typeParameters c left right
    ⟨found.1, found.2⟩

/-- What the rule says about a pair of members. -/
def onMembers (c : Comparer) (left right : Member) : Rule → Verdict
  | sealing => .empty
  | genericConstraints =>
    let found := Rules.methodParameters c left right
    ⟨found.1, found.2⟩

/-- A rule says nothing about a type that is on one side only. -/
def onTypeNode (c : Comparer) (n : TypeNode) (r : Rule) : Verdict :=
  match n.types with
  | .both left right => r.onTypes c left.type right.type
  | _ => .empty

/-- A rule says nothing about a member that is on one side only. -/
def onMemberNode (c : Comparer) (n : MemberNode) (r : Rule) : Verdict :=
  match n with
  | .both left right => r.onMembers c left right
  | _ => .empty

end Rule

/-- What the rules say about a type node and its members. -/
def TypeNode.judge (rules : List Rule) (c : Comparer) (n : TypeNode) : Verdict :=
  .append (.concat (rules.map (Rule.onTypeNode c n)))
    (.concat (n.members.entries.flatMap fun m => rules.map (Rule.onMemberNode c m)))

/-- What the rules say about a tree. -/
def SurfaceTree.judge (rules : List Rule) (tree : SurfaceTree) : Verdict :=
  .concat (tree.types.map (TypeNode.judge rules tree.selection.comparer))

end ApiEvolution
