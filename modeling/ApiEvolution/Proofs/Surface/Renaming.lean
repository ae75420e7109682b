import Mathlib.Logic.Function.Basic
import ApiEvolution.Proofs.Surface.Detached
import ApiEvolution.Proofs.Surface.Shape

/-!
# Renaming assemblies

An assembly is asked for by its simple name without regard to letter case, its version is not asked
for, and a resolution context only tells readings apart. A `Renaming` changes all three wherever
they stand: in names of assemblies, in scopes and descriptors, and in bindings. What is looked up in
a renamed assembly is what is found in the assembly itself, renamed (`Renaming.find?`,
`Renaming.findExported?`, `Renaming.locate`).
-/

namespace ApiEvolution

/-- New simple names, versions and resolution contexts. A simple name keeps its small letters, and
different contexts stay different. -/
structure Renaming where
  simpleName : String → String
  version : Version → Version
  context : Nat → Nat
  lower_simpleName : ∀ s, Text.lower (simpleName s) = Text.lower s
  injective : Function.Injective context

namespace Renaming

/-! ## Names and references -/

section Action

variable (F : Renaming)

def name (a : AssemblyName) : AssemblyName :=
  { a with name := F.simpleName a.name, version := F.version a.version }

def assemblyId (id : AssemblyId) : AssemblyId :=
  { id with context := F.context id.context }

def definitionId (id : DefinitionId) : DefinitionId :=
  { id with assembly := F.assemblyId id.assembly }

mutual

/-- Renames the assemblies that a reference or a descriptor names, and what it is bound to. -/
def ref : TypeRef → TypeRef
  | .mk space name home known => .mk space name (scope home) (binding known)

def scope : Scope → Scope
  | .assembly a => .assembly (F.name a)
  | .nested declaring => .nested (ref declaring)

def binding : Binding → Binding
  | .definition => .definition
  | .unbound => .unbound
  | .unresolved => .unresolved
  | .dropped => .dropped
  | .resolved id descriptor => .resolved (F.definitionId id) (ref descriptor)

end

def type (t : TypeDefinition) : TypeDefinition :=
  t.map F.ref

def member (m : Member) : Member :=
  m.map F.ref

def module (m : Module) : Module :=
  m.map F.ref

/-- Renames an assembly and every assembly that is named in it. -/
def assembly (a : Assembly) : Assembly :=
  { a.map F.ref with name := F.name a.name }

def found (f : Found) : Found :=
  f.map F.type

end Action

variable {F : Renaming}

/-! ## What stays -/

@[simp] theorem lower_name (a : AssemblyName) : Text.lower (F.name a).name = Text.lower a.name :=
  F.lower_simpleName a.name

/-- Names that agree without their versions agree when they are renamed. -/
@[simp] theorem agrees_name (a b : AssemblyName) :
    (F.name a).agrees (F.name b) true = a.agrees b true := by
  simp only [AssemblyName.agrees, Text.sameLetters, lower_name, Bool.true_or]
  rfl

@[simp] theorem assemblyId_inj {i j : AssemblyId} : F.assemblyId i = F.assemblyId j ↔ i = j := by
  obtain ⟨c, n⟩ := i
  obtain ⟨d, m⟩ := j
  simp [assemblyId, F.injective.eq_iff]

@[simp] theorem assemblyId_beq (i j : AssemblyId) :
    (F.assemblyId i == F.assemblyId j) = (i == j) := by
  rw [Bool.eq_iff_iff, beq_iff_eq, beq_iff_eq, assemblyId_inj]

@[simp] theorem space_ref (t : TypeRef) : (F.ref t).space = t.space := by
  cases t
  rfl

@[simp] theorem name_ref (t : TypeRef) : (F.ref t).name = t.name := by
  cases t
  rfl

@[simp] theorem scope_ref (t : TypeRef) : (F.ref t).scope = F.scope t.scope := by
  cases t
  rfl

@[simp] theorem binding_ref (t : TypeRef) : (F.ref t).binding = F.binding t.binding := by
  cases t
  rfl

theorem ref_withBinding (t : TypeRef) (b : Binding) :
    F.ref (t.withBinding b) = (F.ref t).withBinding (F.binding b) := by
  cases t
  rfl

@[simp] theorem isBound_ref (t : TypeRef) : (F.ref t).isBound = t.isBound := by
  obtain ⟨space, name, scope, binding⟩ := t
  cases binding <;> rfl

theorem target?_ref (t : TypeRef) : (F.ref t).target? = t.target?.map F.definitionId := by
  obtain ⟨space, name, scope, binding⟩ := t
  cases binding <;> rfl

theorem definition?_ref (t : TypeRef) : (F.ref t).definition? = t.definition?.map F.ref := by
  obtain ⟨space, name, scope, binding⟩ := t
  cases binding <;> rfl

theorem isSome_declaring?_ref (t : TypeRef) :
    (F.ref t).declaring?.isSome = t.declaring?.isSome := by
  obtain ⟨space, name, scope, binding⟩ := t
  cases scope <;> rfl

mutual

theorem assembly_ref : (t : TypeRef) → (F.ref t).assembly = F.name t.assembly
  | .mk _ _ s _ => assemblyName_scope s

theorem assemblyName_scope : (s : Scope) → (F.scope s).assemblyName = F.name s.assemblyName
  | .assembly _ => rfl
  | .nested d => assembly_ref d

end

mutual

@[simp] theorem path_ref : (t : TypeRef) → (F.ref t).path = t.path
  | .mk space name s _ => congrArg ((space, name) :: ·) (path_scope s)

@[simp] theorem path_scope : (s : Scope) → (F.scope s).path = s.path
  | .assembly _ => rfl
  | .nested d => path_ref d

end

@[simp] theorem fullName_ref (t : TypeRef) : (F.ref t).fullName = t.fullName :=
  TypeRef.fullName_eq_of_path _ _ (path_ref t)

/-- Giving up definitions and renaming may be exchanged. -/
theorem release_binding {kept kept' : DefinitionId → Bool}
    (h : ∀ id, kept' (F.definitionId id) = kept id) (b : Binding) :
    (F.binding b).release kept' = F.binding (b.release kept) := by
  cases b with
  | resolved id d =>
    rw [binding, Binding.release, Binding.release, h id]
    split <;> rfl
  | _ => rfl

mutual

theorem release_ref {kept kept' : DefinitionId → Bool}
    (h : ∀ id, kept' (F.definitionId id) = kept id) :
    (t : TypeRef) → (F.ref t).release kept' = F.ref (t.release kept)
  | .mk space name s b => by
    rw [ref, TypeRef.release, TypeRef.release, ref, release_scope h s, release_binding h b]

theorem release_scope {kept kept' : DefinitionId → Bool}
    (h : ∀ id, kept' (F.definitionId id) = kept id) :
    (s : Scope) → (F.scope s).release kept' = F.scope (s.release kept)
  | .assembly _ => rfl
  | .nested d => congrArg Scope.nested (release_ref h d)

end

/-! ## Types -/

@[simp] theorem descriptor_type (t : TypeDefinition) :
    (F.type t).descriptor = F.ref t.descriptor := by
  cases t
  rfl

@[simp] theorem flags_type (t : TypeDefinition) : (F.type t).flags = t.flags := by
  cases t
  rfl

@[simp] theorem genericParameters_type (t : TypeDefinition) :
    (F.type t).genericParameters = t.genericParameters.map (·.map F.ref) := by
  cases t
  rfl

@[simp] theorem members_type (t : TypeDefinition) :
    (F.type t).members = t.members.map F.member := by
  cases t
  rfl

theorem nestedTypes_type (t : TypeDefinition) :
    (F.type t).nestedTypes = t.nestedTypes.map F.type := by
  cases t
  exact TypeDefinition.mapAll_eq F.ref _

@[simp] theorem fullName_type (t : TypeDefinition) : (F.type t).fullName = t.fullName := by
  rw [TypeDefinition.fullName, descriptor_type, fullName_ref, TypeDefinition.fullName]

theorem shaping_type : TypeDefinition.Shaping F.type where
  isNamed space name t := by
    rw [TypeDefinition.isNamed, descriptor_type, space_ref, name_ref, TypeDefinition.isNamed]
  nestedTypes := nestedTypes_type

/-! ## Looking up in an assembly -/

theorem topLevel_assembly (a : Assembly) : (F.assembly a).topLevel = a.topLevel.map F.type :=
  a.topLevel_map F.ref

theorem exported_assembly (a : Assembly) : (F.assembly a).exported = a.exported.map F.ref :=
  a.exported_map F.ref

theorem find? (a : Assembly) (space name : String) :
    (F.assembly a).find? space name = (a.find? space name).map F.found :=
  shaping_type.find? (topLevel_assembly a) space name

theorem definitionAt? (a : Assembly) (p : List Nat) :
    (F.assembly a).definitionAt? p = (a.definitionAt? p).map F.type :=
  shaping_type.definitionAt? (topLevel_assembly a) p

theorem findExported? (a : Assembly) (space name : String) :
    (F.assembly a).findExported? space name = (a.findExported? space name).map F.ref := by
  have hnamed : ((fun t : TypeRef => t.space == space && t.name == name) ∘ F.ref) =
      fun t => t.space == space && t.name == name := by
    funext t
    rw [Function.comp_apply, space_ref, name_ref]
  rw [Assembly.findExported?, exported_assembly, List.find?_map, hnamed, Assembly.findExported?]

theorem nested? (f : Found) (space name : String) :
    (F.found f).nested? space name = (f.nested? space name).map F.found :=
  shaping_type.nested? f space name

mutual

theorem locate (a : Assembly) : (t : TypeRef) →
    (F.assembly a).locate (F.ref t) = (a.locate t).map F.found
  | .mk space name s _ => locateIn a space name s

theorem locateIn (a : Assembly) (space name : String) : (s : Scope) →
    (F.assembly a).locateIn space name (F.scope s) = (a.locateIn space name s).map F.found
  | .assembly asked => by
    have hname : (F.assembly a).name = F.name a.name := rfl
    rw [scope, Assembly.locateIn, Assembly.locateIn, hname, agrees_name, find?]
    split <;> rfl
  | .nested d => by
    rw [scope, Assembly.locateIn, Assembly.locateIn, locate a d]
    cases a.locate d with
    | none => rfl
    | some f => exact nested? f space name

end

/-! ## Changing an assembly -/

theorem release_assembly {kept kept' : DefinitionId → Bool}
    (h : ∀ id, kept' (F.definitionId id) = kept id) (a : Assembly) :
    (F.assembly a).release kept' = F.assembly (a.release kept) := by
  have hrelease : TypeRef.release kept' ∘ F.ref = F.ref ∘ TypeRef.release kept :=
    funext (release_ref h)
  have hmap : (a.map F.ref).map (TypeRef.release kept') =
      (a.map (TypeRef.release kept)).map F.ref := by
    rw [Assembly.map_map, Assembly.map_map, hrelease]
  exact congrArg (fun b : Assembly => { b with name := F.name a.name }) hmap

/-- An exported type is replaced before or after the assembly is renamed. -/
theorem modify_exported (ms : List Module) (i j : Nat) (t : TypeRef) :
    ((ms.map F.module).modify i fun m => { m with exported := m.exported.set j (F.ref t) }) =
      (ms.modify i fun m => { m with exported := m.exported.set j t }).map F.module := by
  refine List.ext_getElem? fun k => ?_
  rw [List.getElem?_modify, List.getElem?_map, List.getElem?_map, List.getElem?_modify]
  cases ms[k]? with
  | none => rfl
  | some m =>
    by_cases h : i = k
    · simp [h, module, Module.map, List.map_set]
    · simp [h]

/-! ## Renamings that leave names as they are -/

mutual

/-- Where nothing is bound, there is nothing but names to rename. -/
theorem ref_detached (h : ∀ a, F.name a = a) : (t : TypeRef) → F.ref t.detached = t.detached
  | .mk space name s b => by
    have hbinding : F.binding b.detached = b.detached := by
      cases b <;> rfl
    rw [TypeRef.detached, ref, scope_detached h s, hbinding]

theorem scope_detached (h : ∀ a, F.name a = a) : (s : Scope) → F.scope s.detached = s.detached
  | .assembly a => congrArg Scope.assembly (h a)
  | .nested d => congrArg Scope.nested (ref_detached h d)

end

theorem assembly_of_detached (h : ∀ a, F.name a = a) {a : Assembly} (ha : a.detached = a) :
    F.assembly a = a := by
  have hsame : F.ref ∘ TypeRef.detached = TypeRef.detached :=
    funext (ref_detached h)
  have hmap : a.map F.ref = a := by
    rw [← ha, Assembly.detached, Assembly.map_map, hsame]
  rw [assembly, hmap, h]

/-- Nothing is renamed. -/
def identity : Renaming :=
  ⟨id, id, id, fun _ => rfl, Function.injective_id⟩

mutual

theorem ref_identity : (t : TypeRef) → identity.ref t = t
  | .mk space name s b => by rw [ref, scope_identity s, binding_identity b]

theorem scope_identity : (s : Scope) → identity.scope s = s
  | .assembly _ => rfl
  | .nested d => congrArg Scope.nested (ref_identity d)

theorem binding_identity : (b : Binding) → identity.binding b = b
  | .definition | .unbound | .unresolved | .dropped => rfl
  | .resolved id d => congrArg (Binding.resolved id) (ref_identity d)

end

theorem assembly_identity (a : Assembly) : identity.assembly a = a := by
  have hmap : a.map identity.ref = a := by
    rw [funext ref_identity]
    exact a.map_id
  rw [assembly, hmap]
  rfl

end Renaming

end ApiEvolution
