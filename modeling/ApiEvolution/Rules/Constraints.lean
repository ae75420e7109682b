import ApiEvolution.Pairing.Tree
import ApiEvolution.Rules.Difference

/-!
# The rule for generic parameters

Parameters at the same place are compared. A constraint that is added is always a difference. One
that is removed is a difference unless removal is permitted: nobody can override a member of a
sealed type or a method that is not virtual. Variance may be introduced, but not changed or given
up.

Constraint types are compared as sets: each stands for all that are the same, and those without a
definition are left out.
-/

namespace ApiEvolution.Rules

/-- The declaration that the parameters belong to. -/
structure ParameterOwner where
  fullName : String
  permitsRemoval : Bool

/-- The special constraints and how they are written. -/
def specialConstraints : List ((GenericParameter → Bool) × String) :=
  [(GenericParameter.requiresReferenceType, "class"),
    (GenericParameter.requiresValueType, "struct"),
    (GenericParameter.requiresConstructor, "new()")]

/-- The special constraints of `p` that `q` does not have. -/
def specialMinus (p q : GenericParameter) : List String :=
  (specialConstraints.filter fun s => s.1 p && !s.1 q).map (·.2)

/-- The first of each set of signatures that are the same, behind those chosen already. -/
def distinctFrom (c : Comparer) (chosen : List Signature) : List Signature → List Signature
  | [] => chosen
  | s :: rest =>
    if chosen.any (c.sameSignature · s) then distinctFrom c chosen rest
    else distinctFrom c (chosen ++ [s]) rest

/-- The constraint types that have a definition, each once. -/
def constraintTypes (c : Comparer) (p : GenericParameter) : List Signature :=
  distinctFrom c [] (p.constraints.filter Signature.isResolved)

/-- The signatures of the first list that none of the second is the same as. -/
def minus (c : Comparer) (ss ts : List Signature) : List Signature :=
  ss.filter fun s => !ts.any (c.sameSignature s ·)

/-- The constraints of `p` that `q` does not have, as they are written. -/
def constraintsMinus (c : Comparer) (p q : GenericParameter) : List String :=
  specialMinus p q ++ (minus c (constraintTypes c p) (constraintTypes c q)).map Signature.fullName

/-- The variance was changed or given up. -/
def varianceChange (owner : ParameterOwner) (left right : GenericParameter) : List Difference :=
  let before := left.variance
  let after := right.variance
  if before = after ∨ before = .invariant then []
  else
    [.variance (if after = .invariant then .removed else .changed) owner.fullName left.name before
      after]

/-- The differences between two parameters at the same place. -/
def compareParameter (c : Comparer) (owner : ParameterOwner) (left right : GenericParameter) :
    List Difference :=
  let added := (constraintsMinus c right left).map
    fun text => Difference.constraint .added owner.fullName left.name text
  let removed := (constraintsMinus c left right).map
    fun text => Difference.constraint .removed owner.fullName left.name text
  added ++ (if owner.permitsRemoval then [] else removed) ++ varianceChange owner left right

/-- The differences between two parameter lists; lists of different lengths are not compared. -/
def compareParameters (c : Comparer) (owner : ParameterOwner) (left right : List GenericParameter) :
    List Difference × List Diagnostic :=
  if left.length = right.length then
    ((List.zip left right).flatMap fun p => compareParameter c owner p.1 p.2, [])
  else
    ([], [⟨.aritiesDiffer owner.fullName left.length right.length, none⟩])

/-- The parameters of a type; no type can be derived from a sealed one. -/
def typeParameters (c : Comparer) (left right : TypeDefinition) :
    List Difference × List Diagnostic :=
  compareParameters c ⟨left.fullName, left.isSealed⟩ left.genericParameters right.genericParameters

/-- The parameters of a method; no method can override one that is not virtual. -/
def methodParameters (c : Comparer) (left right : Member) : List Difference × List Diagnostic :=
  match left.method?, right.method? with
  | some l, some r =>
    compareParameters c ⟨left.fullName, !left.isVirtual⟩ l.genericParameters r.genericParameters
  | _, _ => ([], [])

end ApiEvolution.Rules
