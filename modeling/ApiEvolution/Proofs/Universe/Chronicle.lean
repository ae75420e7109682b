import ApiEvolution.Proofs.Surface.Detached
import ApiEvolution.Proofs.Surface.Passage
import ApiEvolution.Proofs.Universe.Lookup
import ApiEvolution.Universe.Load

/-!
# What a universe has read

A universe forgets names and lets assemblies go, but it never gives a number twice. A `Chronicle`
lists all assemblies that were read in one context, as they were read, so that an `AssemblyId` means
the same assembly for ever.

`Universe.Records` ties a universe to its chronicle: what it keeps was read, and every reference
in it is `Apt`, which is to say that what it is bound to stands where the binding says and goes by
the name that the reference gives (`Names`).
-/

namespace ApiEvolution

/-! ## Chronicles -/

/-- The assemblies that were read in a resolution context, in order. -/
structure Chronicle where
  context : Nat
  entries : List Assembly

namespace Chronicle

/-- The assembly that the reading `id` has led to. -/
def assembly? (c : Chronicle) (id : AssemblyId) : Option Assembly :=
  if id.context = c.context then c.entries[id.number]? else none

/-- The definition that `id` stands for. -/
def definition? (c : Chronicle) (id : DefinitionId) : Option TypeDefinition :=
  (c.assembly? id.assembly).bind (·.definitionAt? id.position)

/-- One more assembly is read. -/
def add (c : Chronicle) (a : Assembly) : Chronicle :=
  { c with entries := c.entries ++ [a] }

/-- `c'` goes on where `c` ends. -/
structure Extends (c c' : Chronicle) : Prop where
  context : c'.context = c.context
  entries : c.entries <+: c'.entries

variable {c c' c'' : Chronicle}

theorem assembly?_eq_some_iff {id : AssemblyId} {a : Assembly} :
    c.assembly? id = some a ↔ id.context = c.context ∧ c.entries[id.number]? = some a := by
  rw [assembly?]
  split
  · next hid => simp [hid]
  · next hid => simp [hid]

namespace Extends

theorem refl (c : Chronicle) : c.Extends c :=
  ⟨rfl, List.prefix_rfl⟩

theorem trans (h : c.Extends c') (h' : c'.Extends c'') : c.Extends c'' :=
  ⟨h'.context.trans h.context, h.entries.trans h'.entries⟩

theorem assembly? (h : c.Extends c') {id : AssemblyId} {a : Assembly}
    (ha : c.assembly? id = some a) : c'.assembly? id = some a := by
  obtain ⟨hid, hentry⟩ := assembly?_eq_some_iff.1 ha
  obtain ⟨rest, hrest⟩ := h.entries
  refine assembly?_eq_some_iff.2 ⟨hid.trans h.context.symm, ?_⟩
  rw [← hrest, List.getElem?_append_left (List.getElem?_eq_some_iff.1 hentry).1, hentry]

theorem definition? (h : c.Extends c') {id : DefinitionId} {t : TypeDefinition}
    (ht : c.definition? id = some t) : c'.definition? id = some t := by
  obtain ⟨a, ha, hat⟩ := Option.bind_eq_some_iff.1 ht
  rw [Chronicle.definition?, h.assembly? ha, Option.bind_some, hat]

end Extends

theorem extends_add (c : Chronicle) (a : Assembly) : c.Extends (c.add a) :=
  ⟨rfl, List.prefix_append _ _⟩

theorem assembly?_add (c : Chronicle) (a : Assembly) :
    (c.add a).assembly? ⟨c.context, c.entries.length⟩ = some a :=
  assembly?_eq_some_iff.2 ⟨rfl, List.getElem?_concat_length⟩

theorem mem_of_assembly? {id : AssemblyId} {a : Assembly} (h : c.assembly? id = some a) :
    a ∈ c.entries :=
  List.mem_of_getElem? (assembly?_eq_some_iff.1 h).2

/-- The definition stands in an assembly that was read. -/
def Lists (c : Chronicle) (d : Definition) : Prop :=
  c.definition? d.id = some d.type.detached

theorem lists_of_definitionAt? {l : Loaded} (hl : c.assembly? l.id = some l.assembly.detached)
    {p : List Nat} {t : TypeDefinition} (ht : l.assembly.definitionAt? p = some t) :
    c.Lists ⟨⟨l.id, p⟩, t⟩ := by
  rw [Lists, definition?, hl, Option.bind_some, Assembly.definitionAt?_detached, ht,
    Option.map_some]

theorem Lists.nested? {d e : Definition} (hd : c.Lists d) {space name : String}
    (he : d.nested? space name = some e) : c.Lists e := by
  obtain ⟨f, hf, rfl⟩ := Option.map_eq_some_iff.1 he
  obtain ⟨a, ha, hat⟩ := Option.bind_eq_some_iff.1 hd
  rw [Lists, definition?, ha, Option.bind_some]
  exact Assembly.definitionAt?_of_nested? hat (Found.nested?_copy hf)

end Chronicle

/-! ## Names -/

/-- What a reference of the path `p` may lead to goes by `p` and possibly by further declaring
types; where all assemblies are `upright` it goes by `p` exactly. -/
structure Names (upright : Prop) (p q : List (String × String)) : Prop where
  isPrefix : p <+: q
  eq : upright → q = p

namespace Names

variable {upright : Prop} {p q : List (String × String)}

theorem refl (p : List (String × String)) : Names upright p p :=
  ⟨List.prefix_rfl, fun _ => rfl⟩

theorem cons (h : Names upright p q) (step : String × String) :
    Names upright (step :: p) (step :: q) :=
  ⟨List.cons_prefix_cons.2 ⟨rfl, h.isPrefix⟩, fun hu => congrArg (step :: ·) (h.eq hu)⟩

end Names

namespace TypeDefinition

/-- A nested type goes by its name and by that of the type it is nested in. -/
theorem Declared.path_nestedTypes {t u : TypeDefinition} (h : t.Declared) (hu : u ∈ t.nestedTypes) :
    u.descriptor.path = (u.descriptor.space, u.descriptor.name) :: t.descriptor.path := by
  obtain ⟨d, scope, -, rfl⟩ := h
  rw [TypeDeclaration.nestedTypes_build] at hu
  obtain ⟨e, -, rfl⟩ := List.mem_map.1 hu
  rw [TypeDeclaration.descriptor_build scope d, TypeDeclaration.descriptor_build]
  rfl

theorem named_of_first? {space name : String} {ts : List TypeDefinition} {i : Nat}
    {t : TypeDefinition} (h : first? space name ts = some (i, t)) :
    t ∈ ts ∧ t.descriptor.space = space ∧ t.descriptor.name = name := by
  have hfind : ts.find? (isNamed space name) = some t := by
    rw [← first?_type, h]
    rfl
  refine ⟨List.mem_of_find?_eq_some hfind, ?_⟩
  simpa [isNamed] using List.find?_some hfind

end TypeDefinition

namespace Assembly

/-- An exported type that is looked up by its name is a top-level one, or it is not followed. -/
def Upright (a : Assembly) : Prop :=
  ∀ space name e, a.find? space name = none → a.findExported? space name = some e →
    e.declaring? = none ∨ e.assembly.agrees a.name true

variable {a : Assembly}

/-- A top-level type goes by its name. -/
theorem Built.path_find? (h : a.Built) {space name : String} {f : Found}
    (hf : a.find? space name = some f) : f.type.descriptor.path = [(space, name)] := by
  obtain ⟨⟨i, t⟩, ht, rfl⟩ := Option.map_eq_some_iff.1 hf
  obtain ⟨hmem, rfl, rfl⟩ := TypeDefinition.named_of_first? ht
  obtain ⟨d, rfl⟩ := h.declared
  rw [AssemblyDeclaration.topLevel_build] at hmem
  obtain ⟨e, -, rfl⟩ := List.mem_map.1 hmem
  rw [TypeDeclaration.descriptor_build]
  rfl

/-- What an exported type leads to goes by the name that it was looked up by. -/
theorem names_findExported? {upright : Prop} (ha : upright → a.Upright) {space name : String}
    {e : TypeRef} (hnone : a.find? space name = none) (he : a.findExported? space name = some e)
    (hback : ¬e.assembly.agrees a.name true) {q : List (String × String)}
    (hq : Names upright e.path q) : Names upright [(space, name)] q := by
  have hname : e.space = space ∧ e.name = name := by simpa using List.find?_some he
  have hpath : e.path = (space, name) :: e.scope.path := by
    rw [TypeRef.path_eq, hname.1, hname.2]
  refine ⟨?_, fun hu => ?_⟩
  · have hfirst : [(space, name)] <+: e.path := by
      rw [hpath]
      exact List.prefix_append [(space, name)] e.scope.path
    exact hfirst.trans hq.isPrefix
  · have htop : e.scope.path = [] := by
      have hdeclaring := (ha hu space name e hnone he).resolve_right hback
      obtain ⟨_, _, scope, _⟩ := e
      cases scope with
      | assembly _ => rfl
      | nested d => cases hdeclaring
    rw [hq.eq hu, hpath, htop]

end Assembly

/-! ## References that are bound aptly -/

/-- The definition `id` has the descriptor `d`. -/
def Chronicle.Describes (c : Chronicle) (id : DefinitionId) (d : TypeRef) : Prop :=
  ∃ t, c.definition? id = some t ∧ t.descriptor = d

theorem Chronicle.Describes.mono {c c' : Chronicle} (h : c.Extends c') {id : DefinitionId}
    {d : TypeRef} (hd : c.Describes id d) : c'.Describes id d := by
  obtain ⟨t, ht, hdescriptor⟩ := hd
  exact ⟨t, h.definition? ht, hdescriptor⟩

mutual

/-- What the reference and its declaring types are bound to stands where the bindings say, and goes
by the names that they give. -/
def TypeRef.Apt (upright : Prop) (c : Chronicle) : TypeRef → Prop
  | .mk space name scope binding => Scope.Apt upright c scope ∧
    ∀ id d, binding = .resolved id d →
      c.Describes id d ∧ Names upright ((space, name) :: scope.path) d.path

def Scope.Apt (upright : Prop) (c : Chronicle) : Scope → Prop
  | .assembly _ => True
  | .nested declaring => TypeRef.Apt upright c declaring

end

variable {upright : Prop} {c c' : Chronicle}

mutual

theorem TypeRef.Apt.mono (h : c.Extends c') : {t : TypeRef} → t.Apt upright c → t.Apt upright c'
  | .mk _ _ scope _, ht => by
    refine ⟨Scope.Apt.mono h (s := scope) ht.1, fun id d hd => ?_⟩
    obtain ⟨hdescribes, hnames⟩ := ht.2 id d hd
    exact ⟨hdescribes.mono h, hnames⟩

theorem Scope.Apt.mono (h : c.Extends c') : {s : Scope} → s.Apt upright c → s.Apt upright c'
  | .assembly _, _ => trivial
  | .nested d, hd => TypeRef.Apt.mono h (t := d) hd

end

mutual

theorem TypeRef.apt_detached : (t : TypeRef) → t.detached.Apt upright c
  | .mk _ _ scope binding => by
    refine ⟨Scope.apt_detached scope, fun id d hd => ?_⟩
    cases binding <;> cases hd

theorem Scope.apt_detached : (s : Scope) → s.detached.Apt upright c
  | .assembly _ => trivial
  | .nested d => TypeRef.apt_detached d

end

mutual

theorem TypeRef.Apt.release (kept : DefinitionId → Bool) : {t : TypeRef} → t.Apt upright c →
    (t.release kept).Apt upright c
  | .mk _ _ scope binding, ht => by
    refine ⟨Scope.Apt.release kept (s := scope) ht.1, fun id d hd => ?_⟩
    rw [Scope.path_release]
    exact ht.2 id d (Binding.eq_of_release hd)

theorem Scope.Apt.release (kept : DefinitionId → Bool) : {s : Scope} → s.Apt upright c →
    (s.release kept).Apt upright c
  | .assembly _, _ => trivial
  | .nested d, hd => TypeRef.Apt.release kept (t := d) hd

end

theorem TypeRef.Apt.withBinding {t : TypeRef} (h : t.Apt upright c) {b : Binding}
    (hb : ∀ id d, b = .resolved id d → c.Describes id d ∧ Names upright t.path d.path) :
    (t.withBinding b).Apt upright c := by
  obtain ⟨space, name, scope, binding⟩ := t
  exact ⟨h.1, hb⟩

end ApiEvolution
