import ApiEvolution.Proofs.Identity.Laws
import ApiEvolution.Proofs.Rules.Disguise
import ApiEvolution.Proofs.Surface.Renaming

/-!
# Rules do not see new names of assemblies

A comparer `Overlooks` a renaming if it takes the name of an assembly and its new name for one. Then
each side of a comparison may be renamed, by renamings of their own, and everything is the same that
was the same before (`Comparer.sameType_ref`); so rules say what they said before
(`Rule.onTypes_renamed`, `Rule.onMembers_renamed`).
-/

namespace ApiEvolution

/-- The new name of an assembly stands for the old one. -/
def Comparer.Overlooks (c : Comparer) (F : Renaming) : Prop :=
  ∀ a b, c.sameAssembly (F.name a) b = c.sameAssembly a b

namespace Comparer

variable {c : Comparer} {F G : Renaming}

theorem sameAssembly_name (hF : c.Overlooks F) (hG : c.Overlooks G) (a b : AssemblyName) :
    c.sameAssembly (F.name a) (G.name b) = c.sameAssembly a b := by
  rw [hF, sameAssembly_comm, hG, sameAssembly_comm]

theorem agnostic_overlooks (F : Renaming) : agnostic.Overlooks F := by
  intro a b
  simp only [sameAssembly, AssemblyName.agrees, Text.sameLetters, Renaming.lower_name, agnostic,
    Bool.true_or]
  rfl

theorem overlooks_of_name (c : Comparer) (h : ∀ a, F.name a = a) : c.Overlooks F := by
  intro a b
  rw [h]

theorem hereditary_renaming (hF : c.Overlooks F) (hG : c.Overlooks G) :
    Hereditary (fun t => ∀ u, c.sameType (F.ref t) (G.ref u) = c.sameType t u)
      fun s => ∀ s', c.sameScope (F.scope s) (G.scope s') = c.sameScope s s' ∧
        c.sameDeclaring (F.scope s) (G.scope s') = c.sameDeclaring s s' where
  type t hscope hhome u := by
    have hdefinitions : ((F.ref t).definition?.any fun d =>
        (G.ref u).definition?.any fun e => c.sameDeclaring d.scope e.scope) =
          t.definition?.any fun d =>
            u.definition?.any fun e => c.sameDeclaring d.scope e.scope := by
      simp only [Renaming.definition?_ref, Option.any_map]
      cases hd : t.definition? with
      | none => rfl
      | some d => simp only [Option.any_some, Renaming.scope_ref, (hhome d hd _).2]
    rw [sameType_eq, sameType_eq c t, hdefinitions]
    simp only [Renaming.space_ref, Renaming.name_ref, Renaming.scope_ref, (hscope u.scope).1]
  assembly a s' := by
    cases s' with
    | assembly b => exact ⟨sameAssembly_name hF hG a b, rfl⟩
    | nested e => exact ⟨rfl, rfl⟩
  nested d hd s' := by
    cases s' with
    | assembly b => exact ⟨rfl, rfl⟩
    | nested e => exact ⟨hd e, hd e⟩

/-- Both sides may be renamed. -/
theorem sameType_ref (hF : c.Overlooks F) (hG : c.Overlooks G) (t u : TypeRef) :
    c.sameType (F.ref t) (G.ref u) = c.sameType t u :=
  (hereditary_renaming hF hG).all t u

end Comparer

/-- Each side is renamed in its own way. -/
def Disguise.renaming {c : Comparer} {F G : Renaming} (hF : c.Overlooks F) (hG : c.Overlooks G) :
    Disguise c where
  Fits _ := True
  map
    | .left => F.ref
    | .right => G.ref
  sameType i j {t u} _ _ := by
    cases i <;> cases j
    · exact c.sameType_ref hF hF t u
    · exact c.sameType_ref hF hG t u
    · exact c.sameType_ref hG hF t u
    · exact c.sameType_ref hG hG t u
  fullName i t := by cases i <;> exact Renaming.fullName_ref t
  isSome_definition? i t := by cases i <;> simp only [Renaming.definition?_ref, Option.isSome_map]

/-! ## Rules -/

theorem Renaming.looksLike_type (F : Renaming) (t : TypeDefinition) :
    t.LooksLike F.ref (F.type t) where
  flags := flags_type t
  fullName := fullName_type t
  genericParameters := genericParameters_type t
  isEffectivelySealed :=
    TypeDefinition.isEffectivelySealed_congr (flags_type t) (members_type t)
    fun ⟨_, _, _, kind⟩ => by
      cases kind <;> exact ⟨rfl, rfl⟩

theorem Renaming.looksLike_member (F : Renaming) (m : Member) : m.LooksLike F.ref (F.member m) := by
  have hname : (F.member m).fullName = m.fullName :=
    Member.fullName_congr fullName_ref (fullName_ref m.declaringType)
  obtain ⟨name, declaringType, access, kind⟩ := m
  cases kind <;> exact ⟨hname, rfl, rfl⟩

namespace Rule

variable {c : Comparer} {F G : Renaming} (hF : c.Overlooks F) (hG : c.Overlooks G) (rule : Rule)
include hF hG

theorem onTypes_renamed (l r : TypeDefinition) :
    rule.onTypes c (F.type l) (G.type r) = rule.onTypes c l r :=
  Disguise.onTypes (D := .renaming hF hG) .left .right (F.looksLike_type l) (G.looksLike_type r)
    (fun _ _ _ _ _ _ => trivial) (fun _ _ _ _ _ _ => trivial) rule

theorem onMembers_renamed (m n : Member) :
    rule.onMembers c (F.member m) (G.member n) = rule.onMembers c m n :=
  Disguise.onMembers (D := .renaming hF hG) .left .right (F.looksLike_member m)
    (G.looksLike_member n) (fun _ _ _ _ _ _ _ _ => trivial) (fun _ _ _ _ _ _ _ _ => trivial) rule

end Rule

/-- Members of renamed types are the same members as before. -/
theorem Comparer.sameMember_renamed {c : Comparer} {F G : Renaming} (hF : c.Overlooks F)
    (hG : c.Overlooks G) (m n : Member) :
    c.sameMember (F.member m) (G.member n) = c.sameMember m n := by
  have htype := c.sameType_ref hF hG m.declaringType n.declaringType
  have hkind : c.sameKind (m.kind.map F.ref) (n.kind.map G.ref) = c.sameKind m.kind n.kind :=
    (Disguise.renaming hF hG).sameKind .left .right (fun _ _ => trivial) fun _ _ => trivial
  rw [sameMember, sameMember, Renaming.member, Renaming.member, Member.map, Member.map, htype,
    hkind]

end ApiEvolution
