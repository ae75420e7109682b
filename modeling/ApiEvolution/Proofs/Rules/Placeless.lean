import ApiEvolution.Proofs.Identity.Placeless
import ApiEvolution.Proofs.Rules.Disguise

/-!
# Rules do not look at assemblies

What a rule says about two declarations is what it says about them in no particular assembly, as
long as their definitions are chains of definitions (`Rule.onTypes_blurred`,
`Rule.onMembers_blurred`).
-/

namespace ApiEvolution

theorem TypeDefinition.looksLike_blurred (t : TypeDefinition) :
    t.LooksLike TypeRef.blurred t.blurred where
  flags := rfl
  fullName := t.descriptor.fullName_placeless
  genericParameters := rfl
  isEffectivelySealed := isEffectivelySealed_congr rfl rfl fun ⟨_, _, _, kind⟩ => by
    cases kind <;> exact ⟨rfl, rfl⟩

theorem Member.looksLike_blurred (m : Member) : m.LooksLike TypeRef.blurred m.blurred := by
  have hname : m.blurred.fullName = m.fullName := fullName_seen TypeRef.fullName_blurred m
  obtain ⟨name, declaringType, access, kind⟩ := m
  cases kind <;> exact ⟨hname, rfl, rfl⟩

namespace Rule

variable (c : Comparer)

theorem onTypes_blurred {l r : TypeDefinition} (hl : l.Proper) (hr : r.Proper) (rule : Rule) :
    rule.onTypes c l.blurred r.blurred = rule.onTypes c l r :=
  Disguise.onTypes (D := .blurring c) .left .right l.looksLike_blurred r.looksLike_blurred
    (Disguise.suitsParameter_of_refsOf hl.generics) (Disguise.suitsParameter_of_refsOf hr.generics)
    rule

theorem onMembers_blurred {m n : Member} (hm : m.Proper) (hn : n.Proper) (rule : Rule) :
    rule.onMembers c m.blurred n.blurred = rule.onMembers c m n :=
  Disguise.onMembers (D := .blurring c) .left .right m.looksLike_blurred n.looksLike_blurred
    (fun _ => Member.suits_genericParameters hm.refs) (fun _ => Member.suits_genericParameters hn.refs)
    rule

end Rule

end ApiEvolution
