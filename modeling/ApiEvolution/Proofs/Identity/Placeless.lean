import ApiEvolution.Proofs.Identity.Disguise

/-!
# Declarations without their assemblies

Nothing that is compared depends on which assembly a definition is part of. A descriptor is
`placeless` if nothing but its path is left of it, and a reference, a member or a type is `blurred`
if the definitions that it is bound to are. As long as definitions are chains of definitions, being
the same is not affected (`Comparer.sameType_blurred`, `Comparer.sameMember_blurred`).
-/

namespace ApiEvolution

/-! ## Descriptors -/

/-- Declaring types with the given path, the innermost first, in no particular assembly. -/
def Scope.ofPath : List (String × String) → Scope
  | [] => .assembly ⟨"", .zero, none⟩
  | (space, name) :: rest => .nested (.mk space name (ofPath rest) .definition)

/-- The description of a definition in no particular assembly. -/
def TypeRef.placeless (t : TypeRef) : TypeRef :=
  .mk t.space t.name (.ofPath t.scope.path) .definition

theorem Scope.path_ofPath (path : List (String × String)) : (Scope.ofPath path).path = path := by
  induction path with
  | nil => rfl
  | cons step rest ih => rw [ofPath, Scope.path, TypeRef.path, ih]

theorem Scope.isDefinitionChain_ofPath (path : List (String × String)) :
    (Scope.ofPath path).isDefinitionChain := by
  induction path with
  | nil => rfl
  | cons step rest ih => exact ih

namespace TypeRef

@[simp] theorem path_placeless (t : TypeRef) : t.placeless.path = t.path := by
  rw [placeless, path, Scope.path_ofPath, path_eq]

theorem isDefinitionChain_placeless (t : TypeRef) : t.placeless.isDefinitionChain :=
  Scope.isDefinitionChain_ofPath _

theorem placeless_eq_of_path {t u : TypeRef} (h : t.path = u.path) : t.placeless = u.placeless := by
  rw [path_eq, path_eq, List.cons.injEq, Prod.mk.injEq] at h
  obtain ⟨⟨hspace, hname⟩, hscope⟩ := h
  rw [placeless, hspace, hname, hscope, placeless]

mutual

theorem fullName_placeless : (t : TypeRef) → t.placeless.fullName = t.fullName
  | .mk space name scope _ => qualify_ofPath space name scope

theorem qualify_ofPath (space name : String) : (s : Scope) →
    (Scope.ofPath s.path).qualify space name = s.qualify space name
  | .assembly _ => rfl
  | .nested d => by
    have hpath : Scope.ofPath (Scope.nested d).path = .nested d.placeless := by
      rw [Scope.path, path_eq]
      rfl
    rw [hpath, Scope.qualify, Scope.qualify, fullName_placeless d]

end

theorem isSome_declaring?_placeless (t : TypeRef) :
    t.placeless.declaring?.isSome = t.declaring?.isSome := by
  obtain ⟨space, name, scope, binding⟩ := t
  cases scope with
  | assembly a => rfl
  | nested d =>
    have hpath : Scope.ofPath (Scope.nested d).path = .nested d.placeless := by
      rw [Scope.path, path_eq]
      rfl
    rw [placeless, TypeRef.scope, hpath]
    rfl

end TypeRef

/-! ## References -/

/-- The binding to the same definition in no particular assembly. -/
def Binding.blurred : Binding → Binding
  | .resolved _ d => .resolved ⟨⟨0, 0⟩, []⟩ d.placeless
  | b => b

/-- The reference, bound to the same definition in no particular assembly. -/
def TypeRef.blurred (t : TypeRef) : TypeRef :=
  t.withBinding t.binding.blurred

/-- The definition, if there is one, is a chain of definitions. -/
def TypeRef.Proper (t : TypeRef) : Prop :=
  ∀ d, t.definition? = some d → d.isDefinitionChain

namespace TypeRef

theorem Proper.blurred {t : TypeRef} (h : t.Proper) : t.blurred.Proper := by
  obtain ⟨space, name, scope, binding⟩ := t
  cases binding with
  | resolved id d =>
    intro e he
    cases he
    exact d.isDefinitionChain_placeless
  | _ => exact h

theorem definition?_blurred_path (t : TypeRef) :
    t.blurred.definition?.map (·.scope.path) = t.definition?.map (·.scope.path) := by
  obtain ⟨space, name, scope, binding⟩ := t
  cases binding with
  | resolved id d => exact congrArg some (Scope.path_ofPath d.scope.path)
  | _ => rfl

theorem isSome_definition?_blurred (t : TypeRef) :
    t.blurred.definition?.isSome = t.definition?.isSome := by
  have h := congrArg Option.isSome t.definition?_blurred_path
  rwa [Option.isSome_map, Option.isSome_map] at h

theorem fullName_blurred (t : TypeRef) : t.blurred.fullName = t.fullName := by
  cases t
  rfl

end TypeRef

namespace Comparer

variable (c : Comparer)

/-- Whether definitions are the same depends on the paths of their declaring types. -/
theorem any_sameDeclaring {t u : TypeRef} (ht : t.Proper) (hu : u.Proper) :
    (t.definition?.any fun d => u.definition?.any fun e => c.sameDeclaring d.scope e.scope) =
      ((t.definition?.map (·.scope.path)).any fun p =>
        (u.definition?.map (·.scope.path)).any fun q => p == q) := by
  cases hd : t.definition? with
  | none => rfl
  | some d =>
    cases he : u.definition? with
    | none => rfl
    | some e =>
      exact sameDeclaring_eq_of_definitionChain c (TypeRef.of_isDefinitionChain (ht d hd)).2
        (TypeRef.of_isDefinitionChain (hu e he)).2

theorem sameType_blurred {t u : TypeRef} (ht : t.Proper) (hu : u.Proper) :
    c.sameType t.blurred u.blurred = c.sameType t u := by
  rw [sameType_eq, sameType_eq, any_sameDeclaring c ht.blurred hu.blurred,
    any_sameDeclaring c ht hu, t.definition?_blurred_path, u.definition?_blurred_path]
  rfl

theorem sameType_placeless {t u : TypeRef} (ht : t.isDefinitionChain) (hu : u.isDefinitionChain) :
    c.sameType t.placeless u.placeless = c.sameType t u := by
  rw [sameType_eq_of_definitionChain c t.isDefinitionChain_placeless u.isDefinitionChain_placeless,
    sameType_eq_of_definitionChain c ht hu, TypeRef.path_placeless, TypeRef.path_placeless]

end Comparer

/-- Bindings may be blurred unnoticed as long as definitions are chains of definitions. -/
def Disguise.blurring (c : Comparer) : Disguise c where
  Fits := TypeRef.Proper
  map _ := TypeRef.blurred
  sameType _ _ _ _ ht hu := c.sameType_blurred ht hu
  fullName _ := TypeRef.fullName_blurred
  isSome_definition? _ := TypeRef.isSome_definition?_blurred

/-! ## Members -/

/-- The member of a type in no particular assembly, with other references. -/
def Member.seen (f : TypeRef → TypeRef) (m : Member) : Member :=
  { m with declaringType := m.declaringType.placeless, kind := m.kind.map f }

namespace Member

def blurred (m : Member) : Member :=
  m.seen TypeRef.blurred

/-- The declaring type is a chain of definitions, and all references are proper. -/
structure Proper (m : Member) : Prop where
  declaringType : m.declaringType.isDefinitionChain
  refs : ∀ r ∈ m.refs, r.Proper

variable {f : TypeRef → TypeRef}

theorem fullName_seen (hf : ∀ r, (f r).fullName = r.fullName) (m : Member) :
    (m.seen f).fullName = m.fullName :=
  fullName_congr hf m.declaringType.fullName_placeless

theorem fingerprint_seen (m : Member) : (m.seen f).fingerprint = m.fingerprint :=
  fingerprint_congr (TypeRef.path_placeless _)

end Member

namespace Comparer

variable (c : Comparer)

theorem sameMember_blurred {m n : Member} (hm : m.Proper) (hn : n.Proper) :
    c.sameMember m.blurred n.blurred = c.sameMember m n := by
  have htype := sameType_placeless c hm.declaringType hn.declaringType
  have hkind : c.sameKind (m.kind.map TypeRef.blurred) (n.kind.map TypeRef.blurred) =
      c.sameKind m.kind n.kind := (Disguise.blurring c).sameKind .left .right hm.refs hn.refs
  rw [sameMember, sameMember, Member.blurred, Member.blurred, Member.seen, Member.seen, htype, hkind]

end Comparer

/-! ## Types -/

/-- The type in no particular assembly, with other references and without its nested types. -/
def TypeDefinition.seen (f : TypeRef → TypeRef) (t : TypeDefinition) : TypeDefinition :=
  ⟨t.descriptor.placeless, t.flags, t.genericParameters.map (·.map f), t.members.map (·.seen f), []⟩

namespace TypeDefinition

def blurred (t : TypeDefinition) : TypeDefinition :=
  t.seen TypeRef.blurred

/-- The descriptor is a chain of definitions, and all references are proper. -/
structure Proper (t : TypeDefinition) : Prop where
  descriptor : t.descriptor.isDefinitionChain
  generics : ∀ r ∈ GenericParameter.refsOf t.genericParameters, r.Proper
  members : ∀ m ∈ t.members, m.Proper

variable (f : TypeRef → TypeRef)

/-- Binding the references comes to binding them in no particular assembly. -/
theorem blurred_rebind (t : TypeDefinition) :
    (t.rebind f).blurred = t.seen (TypeRef.blurred ∘ f) := by
  obtain ⟨descriptor, flags, ps, ms, nested⟩ := t
  have hmembers : (ms.map (Member.rebind f)).map (Member.seen TypeRef.blurred) =
      ms.map (Member.seen (TypeRef.blurred ∘ f)) := by
    rw [List.map_map]
    refine List.map_congr_left fun m _ => ?_
    simp only [Function.comp_apply, Member.rebind, Member.seen, MemberKind.map_map]
  simp only [rebind, blurred, seen, GenericParameter.list_map_map, hmembers]

theorem isVisible_seen (t : TypeDefinition) : (t.seen f).isVisible = t.isVisible := by
  rw [isVisible, isNested, seen, TypeRef.isSome_declaring?_placeless]
  rfl

end TypeDefinition

end ApiEvolution
