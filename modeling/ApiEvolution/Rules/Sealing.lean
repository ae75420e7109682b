import ApiEvolution.Pairing.Tree
import ApiEvolution.Rules.Difference

/-!
# The sealing rule

A type that could be derived from outside its assembly must stay so. A type is closed for derivation
when it is declared sealed, and also when it has no constructor that a derived type could call.
Interfaces have no constructors and are left out.
-/

namespace ApiEvolution.Rules

/-- The old type could be derived from and the new one cannot. -/
def sealing (left right : TypeDefinition) : List Difference :=
  if left.isInterface || right.isInterface then []
  else if !left.isEffectivelySealed && right.isEffectivelySealed then
    [.sealing right.fullName right.isSealed]
  else []

end ApiEvolution.Rules
