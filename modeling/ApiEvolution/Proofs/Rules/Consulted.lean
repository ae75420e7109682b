import ApiEvolution.Proofs.Rules.Placeless
import ApiEvolution.Proofs.Surface.Detached

/-!
# What rules consult

Of all references of a type, rules look at those in its constraints and in the constraints of its
methods. If none of these is bound to a definition that is given up, no rule sees that definitions
were given up (`Rule.onTypes_release`, `Rule.onMembers_release`).
-/

namespace ApiEvolution

/-! ## The references that are looked at -/

/-- The references in the constraints of a method. -/
def Member.consulted (m : Member) : List TypeRef :=
  m.method?.elim [] fun k => GenericParameter.refsOf k.genericParameters

/-- The references in the constraints of a type and of its methods. -/
def TypeDefinition.consulted (t : TypeDefinition) : List TypeRef :=
  GenericParameter.refsOf t.genericParameters ++ t.members.flatMap Member.consulted

theorem Member.mem_refs_of_consulted {m : Member} {r : TypeRef} (hr : r ∈ m.consulted) :
    r ∈ m.refs := by
  obtain ⟨name, declaringType, access, kind⟩ := m
  cases kind with
  | method k => exact List.mem_append_left _ (List.mem_append_left _ hr)
  | _ => cases hr

theorem TypeDefinition.mem_refs_of_consulted {t : TypeDefinition} {r : TypeRef}
    (hr : r ∈ t.consulted) : r ∈ t.refs := by
  obtain ⟨d, flags, ps, ms, nested⟩ := t
  refine List.mem_append_left _ ?_
  rcases List.mem_append.1 hr with hr | hr
  · exact List.mem_append_left _ hr
  · obtain ⟨m, hm, hr⟩ := List.mem_flatMap.1 hr
    exact List.mem_append_right _ (List.mem_flatMap.2 ⟨m, hm, Member.mem_refs_of_consulted hr⟩)

/-! ## Giving up what is not looked at -/

variable {kept : DefinitionId → Bool}

theorem TypeRef.fullName_release (t : TypeRef) : (t.release kept).fullName = t.fullName :=
  TypeRef.fullName_eq_of_path _ _ (TypeRef.path_release kept t)

/-- Parameters stay as they are if their references do. -/
theorem GenericParameter.map_eq_self {f : TypeRef → TypeRef} {ps : List GenericParameter}
    (h : ∀ r ∈ refsOf ps, f r = r) : ps.map (·.map f) = ps := by
  have hsame : ps.map (·.map f) = ps.map (·.map id) :=
    Passage.replace_congr (Passage.passes_generics ps fun r _ => Passage.passes_still r) h
  exact hsame.trans (list_map_id ps)

/-- The type looks like itself if no reference in its constraints is given up. -/
theorem TypeDefinition.looksLike_release {t : TypeDefinition}
    (h : ∀ r ∈ GenericParameter.refsOf t.genericParameters, r.release kept = r) :
    t.LooksLike id (t.release kept) := by
  obtain ⟨d, flags, ps, ms, nested⟩ := t
  have hparameters : ps.map (·.map (TypeRef.release kept)) = ps.map (·.map id) :=
    (GenericParameter.map_eq_self h).trans (GenericParameter.list_map_id ps).symm
  exact ⟨rfl, d.fullName_release, hparameters,
    isEffectivelySealed_congr rfl rfl fun ⟨_, _, _, kind⟩ => by cases kind <;> exact ⟨rfl, rfl⟩⟩

theorem Member.looksLike_release {m : Member} (h : ∀ r ∈ m.consulted, r.release kept = r) :
    m.LooksLike id (m.map (TypeRef.release kept)) := by
  have hname : (m.map (TypeRef.release kept)).fullName = m.fullName :=
    fullName_congr TypeRef.fullName_release m.declaringType.fullName_release
  obtain ⟨name, declaringType, access, kind⟩ := m
  cases kind with
  | method k =>
    have hparameters : k.genericParameters.map (·.map (TypeRef.release kept)) =
        k.genericParameters.map (·.map id) :=
      (GenericParameter.map_eq_self h).trans (GenericParameter.list_map_id _).symm
    exact ⟨hname, rfl, congrArg some hparameters⟩
  | _ => exact ⟨hname, rfl, rfl⟩

/-- Nothing is replaced. -/
def Disguise.none (c : Comparer) : Disguise c where
  Fits _ := True
  map _ := id
  sameType _ _ _ _ _ _ := rfl
  fullName _ _ := rfl
  isSome_definition? _ _ := rfl

namespace Rule

variable (c : Comparer) (rule : Rule)

theorem onTypes_release {l r : TypeDefinition}
    (hl : ∀ x ∈ GenericParameter.refsOf l.genericParameters, x.release kept = x)
    (hr : ∀ x ∈ GenericParameter.refsOf r.genericParameters, x.release kept = x) :
    rule.onTypes c (l.release kept) (r.release kept) = rule.onTypes c l r :=
  Disguise.onTypes (D := .none c) .left .right (TypeDefinition.looksLike_release hl)
    (TypeDefinition.looksLike_release hr) (fun _ _ _ _ _ _ => trivial) (fun _ _ _ _ _ _ => trivial)
    rule

theorem onMembers_release {m n : Member} (hm : ∀ x ∈ m.consulted, x.release kept = x)
    (hn : ∀ x ∈ n.consulted, x.release kept = x) :
    rule.onMembers c (m.map (TypeRef.release kept)) (n.map (TypeRef.release kept)) =
      rule.onMembers c m n :=
  Disguise.onMembers (D := .none c) .left .right (Member.looksLike_release hm)
    (Member.looksLike_release hn) (fun _ _ _ _ _ _ _ _ => trivial) (fun _ _ _ _ _ _ _ _ => trivial)
    rule

end Rule

end ApiEvolution
