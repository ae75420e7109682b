import ApiEvolution.Proofs.Universe.Bookkeeping
import ApiEvolution.Proofs.Universe.Chronicle
import ApiEvolution.Proofs.Universe.Lookup

/-!
# What resolution finds goes by the name it was asked for

A universe `Records` a chronicle: what it keeps was read in its context, and all references in it
are bound aptly. Every step keeps that up, with a chronicle that may have grown, and what a
reference is found to lead to is of a path that begins with its own (`resolveType_finds`): it is
the same path unless an exported type that was met on the way is a nested one.
-/

namespace ApiEvolution

open Passage

/-! ## What a universe keeps -/

namespace Chronicle

/-- The assembly was read, and its references are bound aptly. -/
structure Keeps (upright : Prop) (c : Chronicle) (l : Loaded) : Prop where
  assembly : c.assembly? l.id = some l.assembly.detached
  references : ∀ r ∈ l.assembly.references, r.Apt upright c
  flat : ∀ r ∈ l.assembly.references, r.Flat

/-- All assemblies that were read are built ones, and upright ones where that is asked for. -/
def Built (upright : Prop) (c : Chronicle) : Prop :=
  ∀ a ∈ c.entries, a.Built ∧ (upright → a.Upright)

/-- What was found for the reference, if anything, goes by its name. -/
def Finds (upright : Prop) (t : TypeRef) (c : Chronicle) (found : Option Definition) : Prop :=
  ∀ d, found = some d → c.Lists d ∧ (t.Apt upright c → Names upright t.path d.type.descriptor.path)

variable {upright : Prop} {c c' : Chronicle} {l : Loaded} {d : Definition}

theorem Keeps.mono (h : c.Extends c') (hl : c.Keeps upright l) : c'.Keeps upright l :=
  ⟨h.assembly? hl.assembly, fun r hr => (hl.references r hr).mono h, hl.flat⟩

theorem Built.declared (h : c.Built upright) {id : DefinitionId} {t : TypeDefinition}
    (ht : c.definition? id = some t) : t.Declared := by
  obtain ⟨a, ha, hat⟩ := Option.bind_eq_some_iff.1 ht
  exact (h a (mem_of_assembly? ha)).1.definitionAt? hat

/-- The descriptor of a definition that was read is the one that was read. -/
theorem Lists.describes (hd : c.Lists d) (h : c.Built upright) :
    c.Describes d.id d.type.descriptor := by
  have hchain := (h.declared hd).descriptor
  rw [TypeDefinition.descriptor_detached, TypeRef.isDefinitionChain_detached] at hchain
  refine ⟨d.type.detached, hd, ?_⟩
  rw [TypeDefinition.descriptor_detached, TypeRef.detached_of_isDefinitionChain _ hchain]

/-- A top-level type that is found in an assembly goes by its name. -/
theorem Keeps.find? (hl : c.Keeps upright l) (h : c.Built upright) {space name : String} {f : Found}
    (hf : l.assembly.find? space name = some f) : c.Lists (l.definition f) ∧
      (l.definition f).type.descriptor.path = [(space, name)] := by
  have hfound : l.assembly.detached.find? space name = some f.detached := by
    rw [Assembly.find?_detached, hf, Option.map_some]
  refine ⟨lists_of_definitionAt? hl.assembly (Assembly.definitionAt?_of_find? hf), ?_⟩
  have hpath := (h _ (mem_of_assembly? hl.assembly)).1.path_find? hfound
  rwa [Found.detached, TypeDefinition.descriptor_detached, TypeRef.path_detached] at hpath

/-- A nested type that is found goes by its name and by that of the type it is nested in. -/
theorem Lists.path_nested? (hd : c.Lists d) (h : c.Built upright) {space name : String}
    {e : Definition} (he : d.nested? space name = some e) :
    e.type.descriptor.path = (space, name) :: d.type.descriptor.path := by
  obtain ⟨f, hf, rfl⟩ := Option.map_eq_some_iff.1 he
  obtain ⟨⟨i, t⟩, ht, htf⟩ := Option.map_eq_some_iff.1 (Found.nested?_copy hf)
  obtain rfl : t = f.type.detached := (Found.mk.inj htf).2
  obtain ⟨hmem, rfl, rfl⟩ := TypeDefinition.named_of_first? ht
  have hpath := (h.declared hd).path_nestedTypes hmem
  simpa [TypeDefinition.descriptor_detached, TypeRef.path_detached] using hpath

/-- What an exported type leads to goes by the name that it was looked up by. -/
theorem Keeps.names_findExported? (hl : c.Keeps upright l) (h : c.Built upright)
    {space name : String} {e : TypeRef} (hnone : l.assembly.find? space name = none)
    (he : l.assembly.findExported? space name = some e)
    (hback : ¬e.assembly.agrees l.assembly.name true) {q : List (String × String)}
    (hq : Names upright e.path q) : Names upright [(space, name)] q := by
  have hupright := (h _ (mem_of_assembly? hl.assembly)).2
  refine Assembly.names_findExported? (e := e.detached) hupright ?_ ?_ ?_ ?_
  · rw [Assembly.find?_detached, hnone, Option.map_none]
  · rw [Assembly.findExported?_detached, he, Option.map_some]
  · rw [TypeRef.assembly_detached]
    exact hback
  · rw [TypeRef.path_detached]
    exact hq

end Chronicle

namespace Universe

/-- The universe keeps what was read in its context, with references that are bound aptly. -/
structure Records (upright : Prop) (c : Chronicle) (u : Universe) : Prop where
  context : u.context = c.context
  next : u.next = c.entries.length
  built : c.Built upright
  keeps : ∀ l ∈ u.assemblies, c.Keeps upright l

namespace Records

variable {upright : Prop} {c : Chronicle} {u v : Universe}

theorem assembly? (h : u.Records upright c) {id : AssemblyId} {l : Loaded}
    (hl : u.assembly? id = some l) : c.Keeps upright l :=
  h.keeps l (List.mem_of_find?_eq_some hl)

/-- What a reference is bound to goes by its name. -/
theorem finds_bound? (h : u.Records upright c) (space name : String) (scope : Scope)
    (binding : Binding) :
    c.Finds upright (.mk space name scope binding) (u.bound? binding) := by
  intro d hd
  obtain ⟨⟨descriptor, rfl⟩, l, hl, hid, hat⟩ := exists_of_bound? hd
  have hlists : c.Lists ⟨⟨l.id, d.id.position⟩, d.type⟩ :=
    Chronicle.lists_of_definitionAt? (h.keeps l hl).assembly hat
  rw [hid] at hlists
  refine ⟨hlists, fun hapt => ?_⟩
  obtain ⟨⟨t, ht, rfl⟩, hnames⟩ := hapt.2 _ descriptor rfl
  obtain rfl : t = d.type.detached := Option.some.inj (ht.symm.trans hlists)
  rwa [TypeDefinition.descriptor_detached, TypeRef.path_detached] at hnames

/-- Names, primary assemblies, reports and readings have no part in what is recorded. -/
theorem of_eq (h : u.Records upright c) (hcontext : v.context = u.context) (hnext : v.next = u.next)
    (hassemblies : v.assemblies = u.assemblies) : v.Records upright c :=
  ⟨hcontext.trans h.context, hnext.trans h.next, h.built, fun l hl => h.keeps l (hassemblies ▸ hl)⟩

theorem takeIn (h : u.Records upright c) {a : Assembly} (ha : a.Built ∧ (upright → a.Upright))
    (key : String) : (u.takeIn key a).2.Records upright (c.add a) ∧
      (c.add a).assembly? ⟨u.context, u.next⟩ = some a := by
  have hassembly : (c.add a).assembly? ⟨u.context, u.next⟩ = some a := by
    rw [h.context, h.next]
    exact c.assembly?_add a
  refine ⟨⟨h.context, ?_, fun b hb => ?_, fun l hl => ?_⟩, hassembly⟩
  · have hlength : (c.add a).entries.length = c.entries.length + 1 := List.length_append
    exact (congrArg (· + 1) h.next).trans hlength.symm
  · rcases List.mem_append.1 hb with hb | hb
    · exact h.built b hb
    · rw [List.mem_singleton.1 hb]
      exact ha
  · rcases List.mem_append.1 hl with hl | hl
    · exact (h.keeps l hl).mono (c.extends_add a)
    · rw [List.mem_singleton.1 hl]
      refine ⟨by rw [ha.1.unbound]; exact hassembly, fun r hr => ?_, fun r hr => ?_⟩
      · rw [← Assembly.detached_of_mem_references ha.1.unbound hr]
        exact r.apt_detached
      · rw [← Assembly.detached_of_mem_references ha.1.unbound hr]
        exact r.flat_detached

theorem update (h : u.Records upright c) {id : AssemblyId} {f : Assembly → Assembly}
    (hf : ∀ a, c.Keeps upright ⟨id, a⟩ → c.Keeps upright ⟨id, f a⟩) :
    (u.update id f).Records upright c := by
  refine ⟨h.context, h.next, h.built, fun l hl => ?_⟩
  obtain ⟨⟨id', a⟩, hl', rfl⟩ := List.mem_map.1 hl
  have hkeeps := h.keeps _ hl'
  split
  · next hid =>
    obtain rfl : id' = id := by simpa using hid
    exact hf a hkeeps
  · exact hkeeps

theorem collect (h : u.Records upright c) : u.collect.Records upright c := by
  refine ⟨h.context, h.next, h.built, fun l hl => ?_⟩
  obtain ⟨l, hmem, rfl⟩ := List.mem_map.1 hl
  have hkeeps := h.keeps l (List.mem_of_mem_filter hmem)
  refine ⟨?_, fun r hr => ?_, fun r hr => ?_⟩
  · rw [Assembly.detached_release]
    exact hkeeps.assembly
  all_goals
    rw [Assembly.release, Assembly.references_map] at hr
    obtain ⟨r, hmem, rfl⟩ := List.mem_map.1 hr
  · exact (hkeeps.references r hmem).release _
  · exact (hkeeps.flat r hmem).release _

end Records

/-- References are bound one after the other, each to what goes by its name. -/
def naming (upright : Prop) : Passage Chronicle where
  le := Chronicle.Extends
  rel c t t' := t'.detached = t ∧ t'.Apt upright c ∧ t'.Flat
  refl := .refl
  trans := .trans
  mono h hr := ⟨hr.1, hr.2.1.mono h, hr.2.2⟩

/-- The assemblies that are found were read. -/
def FindsAssemblies (upright : Prop) (resolve : AssemblyResolver) : Prop :=
  ∀ name, (naming upright).Ensures (Records upright) (resolve name) fun c found =>
    ∀ l, found = some l → c.Keeps upright l

/-- What is read is made by declarations, is not bound yet, and is upright where that is asked
for. -/
def ReadsBuilt (upright : Prop) (read : Reader) : Prop :=
  ∀ p a, read p = .ok a → a.Built ∧ (upright → a.Upright)

/-! ## The chronicle as a record -/

section Recording

variable {upright : Prop} {c : Chronicle} {u : Universe} {id : AssemblyId} {a b : Assembly}

/-- The binding of an exported type is entered. -/
theorem Records.setExported (hu : u.Records upright c) (hid : c.assembly? id = some a) {m : Module}
    {module position : Nat} {t t' : TypeRef} (hm : a.modules[module]? = some m)
    (ht : m.exported[position]? = some t) (hrel : (naming upright).rel c t t') :
    (setExported id module position t' u).Records upright c := by
  obtain ⟨hplace, hapt, hflat⟩ := hrel
  refine hu.update fun b hb => ⟨?_, fun r hr => ?_, fun r hr => ?_⟩
  · obtain rfl : b.detached = a := Option.some.inj (hb.assembly.symm.trans hid)
    refine hb.assembly.trans (congrArg some ?_)
    exact (Assembly.detached_setExported hm (hplace ▸ ht)).symm
  · rcases Assembly.mem_references_setExported hr with hr | rfl
    · exact hb.references r hr
    · exact hapt
  · rcases Assembly.mem_references_setExported hr with hr | rfl
    · exact hb.flat r hr
    · exact hflat

/-- An assembly that was read is kept with its references bound. -/
theorem keeps_of_replaced (hid : c.assembly? id = some a) (ha : a.detached = a)
    (h : Replaced ((naming upright).rel c) a b) : c.Keeps upright ⟨id, b⟩ := by
  have hrel : ∀ r ∈ b.references, r.Apt upright c ∧ r.Flat := by
    intro r hr
    obtain ⟨_, -, hrel⟩ := h.exists_of_mem (Assembly.mem_refs.2 hr)
    exact hrel.2
  refine ⟨hid.trans (congrArg some ?_), fun r hr => (hrel r hr).1, fun r hr => (hrel r hr).2⟩
  exact (h.detached_eq ha fun _ _ hr => hr.1).symm

theorem naming_rel_self (ha : a.detached = a) {t : TypeRef} (ht : t ∈ a.references) :
    (naming upright).rel c t t := by
  have hdetached := Assembly.detached_of_mem_references ha ht
  exact ⟨hdetached, hdetached ▸ t.apt_detached, hdetached ▸ t.flat_detached⟩

/-- A reference is bound to what is described there and goes by its name. -/
theorem naming_rel_withBinding {t : TypeRef} (h : (naming upright).rel c t t)
    (ht : t.isBound = false) {binding : Binding} (hbinding : binding.detached = .unbound)
    (hdescribes : ∀ id d, binding = .resolved id d →
      c.Describes id d ∧ Names upright t.path d.path) :
    (naming upright).rel c t (t.withBinding binding) :=
  ⟨(TypeRef.detached_withBinding ht hbinding).trans h.1, h.2.1.withBinding hdescribes,
    h.2.2.withBinding binding⟩

/-- The chronicle lists what was read, and what a reference leads to goes by its name. -/
def recording {read : Reader} (hread : ReadsBuilt upright read) : Bookkeeping Chronicle read where
  toPassage := naming upright
  right c u := u.Records upright c
  taken c id a := c.assembly? id = some a ∧ a.Built
  kept c l := c.Keeps upright l
  leads c t d := c.Lists d ∧ (t.Apt upright c → Names upright t.path d.type.descriptor.path)
  taken_mono hle h := ⟨Chronicle.Extends.assembly? hle h.1, h.2⟩
  kept_mono hle h := h.mono hle
  kept_of_assembly? hu hl := hu.assembly? hl
  leads_bound t hu hd := by
    obtain ⟨space, name, scope, binding⟩ := t
    exact hu.finds_bound? space name scope binding _ hd
  leads_own _ _ hu hl hf := by
    obtain ⟨hlists, hpath⟩ := hl.find? hu.built hf
    exact ⟨hlists, fun _ => hpath ▸ .refl _⟩
  leads_exported _ _ hu hl hf he hback hd := by
    have hapt := hl.references _ (List.mem_append_right _ (List.mem_of_find?_eq_some he))
    exact ⟨hd.1, fun _ => hl.names_findExported? hu.built hf he hback (hd.2 hapt)⟩
  leads_nested binding hu hd he := by
    refine ⟨hd.1.nested? he, fun hapt => ?_⟩
    rw [hd.1.path_nested? hu.built he]
    exact (hd.2 hapt.1).cons _
  rel_self ha ht := naming_rel_self ha.2.unbound ht
  rel_resolved {c _ _ _ t _} hu ha ht hunbound hd := by
    have hself : (naming upright).rel c t t := naming_rel_self ha.2.unbound ht
    refine naming_rel_withBinding hself hunbound rfl fun _ _ he => ?_
    cases he
    exact ⟨hd.1.describes hu.built, hd.2 hself.2.1⟩
  rel_unresolved ha ht hunbound :=
    naming_rel_withBinding (naming_rel_self ha.2.unbound ht) hunbound rfl nofun
  right_setExported hu ha hm ht hrel := hu.setExported ha.1 hm ht hrel
  kept_of_replaced _ ha h := keeps_of_replaced ha.1 ha.2.unbound h
  right_update hu _ hkept := hu.update fun _ _ => hkept
  right_report _ hu := hu.of_eq rfl rfl rfl
  right_remember _ hu := hu.of_eq rfl rfl rfl
  right_unreadable hu _ := hu.of_eq rfl rfl rfl
  takes_in {c u path a} key hu hr := by
    have hnoted : (u.noteRead path).Records upright c := hu.of_eq rfl rfl rfl
    obtain ⟨htaken, hid⟩ := hnoted.takeIn (hread path a hr) key
    exact ⟨c.add a, c.extends_add a, htaken, hid, (hread path a hr).1⟩
  right_primaries _ hu := hu.of_eq rfl rfl rfl
  right_collect hu := hu.collect

end Recording

/-! ## Whatever is asked -/

section Loading

variable {upright : Prop} {read : Reader}

theorem resolveAssembly_finds (hread : ReadsBuilt upright read) :
    FindsAssemblies upright (resolveAssembly read) :=
  (recording hread).resolveAssembly_finds

/-- However many exported types are followed, what is found goes by the name of the reference. -/
theorem resolveType_finds (hread : ReadsBuilt upright read) (t : TypeRef) :
    (naming upright).Ensures (Records upright) (resolveType read t) (Chronicle.Finds upright t) :=
  (recording hread).resolveType_leads t

theorem loadPrimary_keeps (hread : ReadsBuilt upright read) (path : Path) :
    (naming upright).Ensures (Records upright) (loadPrimary read path) fun c found =>
      ∀ l, found = .ok l → c.Keeps upright l :=
  (recording hread).loadPrimary_kept path

end Loading

end Universe

end ApiEvolution
