import ApiEvolution.Proofs.Identity.Laws
import ApiEvolution.Rules.Judge

/-!
# A declaration and itself

Nothing is missing when the constraints of a parameter are subtracted from themselves, since
signatures are the same as themselves, and so no rule finds a difference between a declaration and
itself (`Rule.onTypes_self`, `Rule.onMembers_self`).
-/

namespace ApiEvolution

/-! ## Generic parameters -/

namespace Rules

variable (c : Comparer) (owner : ParameterOwner) (p : GenericParameter)

theorem minus_self (ss : List Signature) : minus c ss ss = [] := by
  refine List.filter_eq_nil_iff.2 fun s hs => ?_
  have hany : ss.any (c.sameSignature s ·) := List.any_eq_true.2 ⟨s, hs, c.sameSignature_self s⟩
  simp [hany]

theorem constraintsMinus_self : constraintsMinus c p p = [] := by
  have hspecial : specialMinus p p = [] := by
    simp only [specialMinus, Bool.and_not_self, List.filter_eq_nil_iff.2, Bool.false_eq_true,
      not_false_eq_true, implies_true, List.map_nil]
  rw [constraintsMinus, hspecial, minus_self]
  rfl

theorem compareParameter_self : compareParameter c owner p p = [] := by
  have hvariance : varianceChange owner p p = [] := if_pos (.inl rfl)
  simp only [compareParameter, constraintsMinus_self, hvariance, List.map_nil, ite_self,
    List.append_nil]

theorem compareParameters_self (ps : List GenericParameter) :
    (compareParameters c owner ps ps).1 = [] := by
  rw [compareParameters, if_pos rfl]
  have hzip : List.zip ps ps = ps.map fun p => (p, p) := List.zipWith_self
  rw [hzip, List.flatMap_map]
  exact List.flatMap_eq_nil_iff.2 fun p _ => compareParameter_self c owner p

theorem methodParameters_self (m : Member) : (methodParameters c m m).1 = [] := by
  unfold methodParameters
  cases m.method? with
  | none => rfl
  | some n => exact compareParameters_self c _ n.genericParameters

end Rules

/-! ## Rules -/

namespace Rule

variable (c : Comparer) (rule : Rule)

theorem onTypes_self (t : TypeDefinition) : (rule.onTypes c t t).differences = [] := by
  cases rule with
  | sealing =>
    simp only [onTypes, Rules.sealing, Bool.not_and_self, Bool.false_eq_true, if_false, ite_self]
  | genericConstraints => exact Rules.compareParameters_self c _ t.genericParameters

theorem onMembers_self (m : Member) : (rule.onMembers c m m).differences = [] := by
  cases rule with
  | sealing => rfl
  | genericConstraints => exact Rules.methodParameters_self c m

end Rule

end ApiEvolution
