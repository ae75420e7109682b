import ApiEvolution.Proofs.Run.Surface

/-!
# Moving a type to another assembly

A `Relocation` takes a top-level type out of an assembly, leaves a forwarder in its place and puts
the type into an assembly of its own. Whatever a reference led to before, it leads to the same
declaration afterwards, by one exported type more at most (`Relocated.lookupWithin_forth`), and to
nothing else (`Relocated.lookupWithin_back`). So a comparison sees the same of every reference
(`Relocated.sight_eq`).
-/

namespace ApiEvolution

/-- A type that leaves the assembly `origin` for an assembly `target` of its own, with everything
else that stands in `origin`. -/
structure Relocation where
  origin : AssemblyName
  target : AssemblyName
  modulesAhead : List ModuleDeclaration
  moduleName : String
  typesAhead : List TypeDeclaration
  type : TypeDeclaration
  typesBehind : List TypeDeclaration
  exportedAhead : List TypeRef
  exportedBehind : List TypeRef
  modulesBehind : List ModuleDeclaration

namespace Relocation

variable (m : Relocation)

/-- The assembly that still has the type. -/
def before : AssemblyDeclaration :=
  ⟨m.origin, m.modulesAhead ++ ⟨m.moduleName, m.typesAhead ++ m.type :: m.typesBehind,
    m.exportedAhead ++ m.exportedBehind⟩ :: m.modulesBehind⟩

/-- What stands in place of the type. -/
def forwarder : TypeRef :=
  AssemblyDeclaration.forwarder m.type.space m.type.name m.target

/-- The assembly that forwards the type. -/
def facade : AssemblyDeclaration :=
  ⟨m.origin, m.modulesAhead ++ ⟨m.moduleName, m.typesAhead ++ m.typesBehind,
    m.exportedAhead ++ m.forwarder :: m.exportedBehind⟩ :: m.modulesBehind⟩

/-- The assembly that the type is in from then on. -/
def home : AssemblyDeclaration :=
  ⟨m.target, [AssemblyDeclaration.mainModule m.target [m.type] []]⟩

/-- Nothing else that is defined or exported goes by the namespace and name of the type. -/
structure Unique : Prop where
  types : ∀ d ∈ m.facade.modules.flatMap (·.types),
    ¬(d.space = m.type.space ∧ d.name = m.type.name)
  exported : ∀ t ∈ m.before.modules.flatMap (·.exported),
    ¬(t.space = m.type.space ∧ t.name = m.type.name)

/-- The reference does not mention the assembly that the type moves to. -/
def Spares (t : TypeRef) : Prop :=
  Universe.key t.assembly ≠ Universe.key m.target

end Relocation

/-- The world `w'` is `w` after the move. -/
structure Relocated (m : Relocation) (w w' : World) : Prop where
  unique : m.Unique
  elsewhere : Universe.key m.target ≠ Universe.key m.origin
  pristine : w.Pristine
  spared : ∀ k a, w k = some a → ∀ t ∈ a.references, m.Spares t
  target : w' (Universe.key m.target) = some m.home.build
  others : ∀ k, k ≠ Universe.key m.target →
    w' k = w k ∨ (w k = some m.before.build ∧ w' k = some m.facade.build)

namespace Relocation

variable {m : Relocation}

/-! ## The three assemblies -/

/-- The types that stand ahead of the one that moves, and behind it. -/
def ahead (m : Relocation) : List TypeDeclaration :=
  m.modulesAhead.flatMap (·.types) ++ m.typesAhead

def behind (m : Relocation) : List TypeDeclaration :=
  m.typesBehind ++ m.modulesBehind.flatMap (·.types)

theorem types_before : m.before.modules.flatMap (·.types) = m.ahead ++ m.type :: m.behind := by
  simp [before, ahead, behind]

theorem types_facade : m.facade.modules.flatMap (·.types) = m.ahead ++ m.behind := by
  simp [facade, ahead, behind]

/-- The two names are those of the type. -/
def Named (m : Relocation) (space name : String) : Prop :=
  m.type.space = space ∧ m.type.name = name

theorem isNamed_type (m : Relocation) (space name : String) (scope : Scope) :
    (m.type.build scope).isNamed space name ↔ m.Named space name := by
  rw [TypeDeclaration.isNamed_build, Bool.and_eq_true, beq_iff_eq, beq_iff_eq, Named]

/-- None of some other types goes by the names of the type. -/
theorem find?_other (hm : m.Unique) {ds : List TypeDeclaration}
    (hds : ∀ d ∈ ds, d ∈ m.facade.modules.flatMap (·.types)) (scope : Scope) :
    (ds.map (TypeDeclaration.build scope)).find? (TypeDefinition.isNamed m.type.space m.type.name) =
      none := by
  refine List.find?_eq_none.2 fun t ht hnamed => ?_
  obtain ⟨d, hd, rfl⟩ := List.mem_map.1 ht
  rw [TypeDeclaration.isNamed_build, Bool.and_eq_true, beq_iff_eq, beq_iff_eq] at hnamed
  exact hm.types d (hds d hd) hnamed

theorem find?_before {space name : String} (h : ¬m.Named space name) :
    (m.before.build.find? space name).map (·.type) =
      (m.facade.build.find? space name).map (·.type) := by
  have hno : (m.type.build (.assembly m.origin)).isNamed space name = false :=
    Bool.not_eq_true _ ▸ fun hnamed => h ((isNamed_type m space name _).1 hnamed)
  have hname : m.before.name = m.origin ∧ m.facade.name = m.origin := ⟨rfl, rfl⟩
  rw [Assembly.find?_type, Assembly.find?_type, AssemblyDeclaration.topLevel_build,
    AssemblyDeclaration.topLevel_build, types_before, types_facade, hname.1, hname.2,
    List.map_append, List.map_append, List.map_cons, List.find?_append, List.find?_append,
    List.find?_cons_of_neg (by rw [hno]; exact Bool.false_ne_true)]

theorem find?_before_named (hm : m.Unique) :
    (m.before.build.find? m.type.space m.type.name).map (·.type) =
      some (m.type.build (.assembly m.origin)) := by
  have hname : m.before.name = m.origin := rfl
  have hmem : ∀ d ∈ m.ahead, d ∈ m.facade.modules.flatMap (·.types) := by
    intro d hd
    rw [types_facade]
    exact List.mem_append_left _ hd
  have hahead := find?_other hm hmem (.assembly m.origin)
  rw [Assembly.find?_type, AssemblyDeclaration.topLevel_build, types_before, hname, List.map_append,
    List.find?_append, hahead, List.map_cons,
    List.find?_cons_of_pos ((isNamed_type m _ _ _).2 ⟨rfl, rfl⟩), Option.none_or]

theorem find?_facade_named (hm : m.Unique) :
    m.facade.build.find? m.type.space m.type.name = none := by
  have hfind := find?_other hm (fun _ hd => hd) (.assembly m.facade.name)
  rw [← AssemblyDeclaration.topLevel_build, ← Assembly.find?_type] at hfind
  exact Option.map_eq_none_iff.1 hfind

/-- The exported types that stand ahead of the forwarder, and behind it. -/
theorem exported_facade (m : Relocation) : m.facade.modules.flatMap (·.exported) =
    m.modulesAhead.flatMap (·.exported) ++ m.exportedAhead ++
      m.forwarder :: (m.exportedBehind ++ m.modulesBehind.flatMap (·.exported)) := by
  simp [facade]

theorem exported_before (m : Relocation) : m.before.modules.flatMap (·.exported) =
    m.modulesAhead.flatMap (·.exported) ++ m.exportedAhead ++
      (m.exportedBehind ++ m.modulesBehind.flatMap (·.exported)) := by
  simp [before]

theorem findExported?_facade {space name : String} (h : ¬m.Named space name) :
    m.facade.build.findExported? space name = m.before.build.findExported? space name := by
  have hno : (m.forwarder.space == space && m.forwarder.name == name) = false := by
    rw [← Bool.not_eq_true, Bool.and_eq_true, beq_iff_eq, beq_iff_eq]
    exact h
  rw [Assembly.findExported?, Assembly.findExported?, AssemblyDeclaration.exported_build,
    AssemblyDeclaration.exported_build, exported_facade, exported_before]
  simp only [List.find?_append, List.find?_cons, hno]

theorem findExported?_facade_named (hm : m.Unique) :
    m.facade.build.findExported? m.type.space m.type.name = some m.forwarder := by
  have hahead : (m.modulesAhead.flatMap (·.exported) ++ m.exportedAhead).find?
      (fun t => t.space == m.type.space && t.name == m.type.name) = none := by
    refine List.find?_eq_none.2 fun t ht hnamed => ?_
    rw [Bool.and_eq_true, beq_iff_eq, beq_iff_eq] at hnamed
    refine hm.exported t ?_ hnamed
    rw [exported_before]
    exact List.mem_append_left _ ht
  have hforwarder :
      (m.forwarder.space == m.type.space && m.forwarder.name == m.type.name) = true := by
    rw [Bool.and_eq_true, beq_iff_eq, beq_iff_eq]
    exact ⟨rfl, rfl⟩
  rw [Assembly.findExported?, AssemblyDeclaration.exported_build, exported_facade,
    List.find?_append, hahead, List.find?_cons, hforwarder, Option.none_or]

theorem find?_home : m.home.build.find? m.type.space m.type.name =
    some ⟨[0], m.type.build (.assembly m.target)⟩ := by
  have htop : m.home.build.topLevel = [m.type.build (.assembly m.target)] := by
    rw [AssemblyDeclaration.topLevel_build]
    rfl
  have hnamed := (isNamed_type m _ _ (.assembly m.target)).2 ⟨rfl, rfl⟩
  rw [Assembly.find?, htop, TypeDefinition.first?, List.zipIdx_singleton,
    List.find?_cons, hnamed]
  rfl

theorem exported_home : m.home.build.exported = [] := rfl

end Relocation

/-! ## Looking up before and after -/

/-- Definitions of one declaration stand at the two places. -/
def Place.Twins (x y : Place) : Prop :=
  x.found.type.Twins y.found.type

theorem Place.Twins.nested? {x y : Place} (h : x.Twins y) {space name : String} {v : Place}
    (hv : x.nested? space name = some v) : ∃ v', y.nested? space name = some v' ∧ v.Twins v' := by
  obtain ⟨f, hf, rfl⟩ := Option.map_eq_some_iff.1 hv
  obtain ⟨t, ht, rfl⟩ := Option.map_eq_some_iff.1 hf
  obtain ⟨t', ht', htwins⟩ := TypeDefinition.Twins.first?_nestedTypes h ht
  refine ⟨⟨y.key, ⟨y.found.position ++ [t.1], t'⟩⟩, ?_, htwins⟩
  rw [Place.nested?, Found.nested?, ht']
  rfl

theorem Assembly.Pristine.find? {a : Assembly} (h : a.Pristine) {space name : String} {f : Found}
    (hf : a.find? space name = some f) : f.type.Declared := by
  have htype := a.find?_type space name
  rw [hf] at htype
  exact h.topLevel (List.mem_of_find?_eq_some htype.symm)

theorem Place.Twins.symm {x y : Place} (h : x.Twins y) : y.Twins x :=
  TypeDefinition.Twins.symm h

namespace World

/-- What is found in one assembly is found in another one that differs in positions only. -/
theorem inAssembly_transfer {R : Place → Place → Prop} {follow follow' : TypeRef → Option Place}
    {space name k : String} {a a' : Assembly} (hname : a'.name = a.name)
    (hfind : ∀ f, a.find? space name = some f →
      ∃ f', a'.find? space name = some f' ∧ R ⟨k, f⟩ ⟨k, f'⟩)
    (hnone : a.find? space name = none → a'.find? space name = none)
    (hexported : a'.findExported? space name = a.findExported? space name)
    (hfollow : ∀ e, a.findExported? space name = some e → ∀ x, follow e = some x →
      ∃ x', follow' e = some x' ∧ R x x')
    {x : Place} (hx : inAssembly follow space name k a = some x) :
    ∃ x', inAssembly follow' space name k a' = some x' ∧ R x x' := by
  unfold inAssembly at hx ⊢
  rw [hexported, hname]
  cases hf : a.find? space name with
  | some f =>
    rw [hf] at hx
    cases hx
    obtain ⟨f', hf', hr⟩ := hfind f hf
    rw [hf']
    exact ⟨_, rfl, hr⟩
  | none =>
    rw [hf] at hx
    rw [hnone hf]
    cases he : a.findExported? space name with
    | none =>
      rw [he] at hx
      cases hx
    | some e =>
      simp only [he] at hx ⊢
      split at hx
      · cases hx
      · next hself =>
        rw [if_neg hself]
        exact hfollow e he x hx

end World

theorem Relocation.twins_of_type {m : Relocation} {x y : Place}
    (hx : x.found.type = m.type.build (.assembly m.origin))
    (hy : y.found.type = m.type.build (.assembly m.target)) : x.Twins y :=
  ⟨m.type, .assembly m.origin, .assembly m.target, rfl, hx, hy⟩

namespace Relocated

variable {m : Relocation} {w w' : World}
  {follow follow' : TypeRef → Option Place} {space name k : String}

/-- An assembly that has no part in the move. -/
theorem inAssembly_same (h : Relocated m w w') {a : Assembly} (ha : w k = some a)
    (hfollow : ∀ e ∈ a.exported, ∀ x, follow e = some x → ∃ x', follow' e = some x' ∧ x.Twins x')
    {x : Place} (hx : World.inAssembly follow space name k a = some x) :
    ∃ x', World.inAssembly follow' space name k a = some x' ∧ x.Twins x' :=
  World.inAssembly_transfer rfl
    (fun f hf => ⟨f, hf, ((h.pristine k a ha).find? hf).twins⟩) (fun hf => hf) rfl
    (fun e he => hfollow e (List.mem_of_find?_eq_some he)) hx

/-- The forwarder does not point back at the assembly it stands in. -/
theorem agrees_forwarder (h : Relocated m w w') :
    m.forwarder.assembly.agrees m.facade.build.name true = false := by
  have hassembly : m.forwarder.assembly = m.target := rfl
  rw [hassembly, ← Bool.not_eq_true, AssemblyName.agrees, Bool.and_eq_true, Bool.and_eq_true,
    Text.sameLetters_iff]
  exact fun hagrees => h.elsewhere hagrees.1.1

theorem inAssembly_facade_named (h : Relocated m w w') :
    World.inAssembly follow' m.type.space m.type.name k m.facade.build = follow' m.forwarder := by
  rw [World.inAssembly, Relocation.find?_facade_named h.unique,
    Relocation.findExported?_facade_named h.unique]
  simp only [h.agrees_forwarder]
  rfl

theorem inAssembly_before_named (h : Relocated m w w') (follow : TypeRef → Option Place)
    (k : String) : ∃ f : Found, f.type = m.type.build (.assembly m.origin) ∧
      World.inAssembly follow m.type.space m.type.name k m.before.build = some ⟨k, f⟩ := by
  obtain ⟨f, hf, htype⟩ := Option.map_eq_some_iff.1 (Relocation.find?_before_named h.unique)
  refine ⟨f, htype, ?_⟩
  rw [World.inAssembly, hf]

/-- What is found in the assembly that still has the type is found in the one that forwards it. -/
theorem inAssembly_forth (h : Relocated m w w') (ha : w k = some m.before.build)
    (hfollow : ∀ e ∈ m.before.build.exported, ∀ x, follow e = some x →
      ∃ x', follow' e = some x' ∧ x.Twins x')
    (hforwarder : ∃ y, follow' m.forwarder = some y ∧
      y.found.type = m.type.build (.assembly m.target)) {x : Place}
    (hx : World.inAssembly follow space name k m.before.build = some x) :
    ∃ x', World.inAssembly follow' space name k m.facade.build = some x' ∧ x.Twins x' := by
  by_cases hnamed : m.Named space name
  · obtain ⟨rfl, rfl⟩ := hnamed
    obtain ⟨f, hf, hfound⟩ := h.inAssembly_before_named follow k
    obtain ⟨y, hy, htype⟩ := hforwarder
    rw [hfound] at hx
    cases hx
    rw [h.inAssembly_facade_named, hy]
    exact ⟨y, rfl, Relocation.twins_of_type hf htype⟩
  · have hsame := Relocation.find?_before hnamed
    have hname : m.facade.build.name = m.before.build.name := rfl
    refine World.inAssembly_transfer hname (fun f hf => ?_) (fun hf => ?_)
      (Relocation.findExported?_facade hnamed)
      (fun e he => hfollow e (List.mem_of_find?_eq_some he)) hx
    · rw [hf, Option.map_some] at hsame
      obtain ⟨f', hf', hsame⟩ := Option.map_eq_some_iff.1 hsame.symm
      refine ⟨f', hf', ?_⟩
      rw [Place.Twins, hsame]
      exact ((h.pristine k _ ha).find? hf).twins
    · rw [hf, Option.map_none] at hsame
      exact Option.map_eq_none_iff.1 hsame.symm

/-- Nothing else is found in the assembly that forwards the type. -/
theorem inAssembly_back (h : Relocated m w w') (ha : w k = some m.before.build)
    (hfollow : ∀ e ∈ m.before.build.exported, ∀ x', follow' e = some x' →
      ∃ x, follow e = some x ∧ x.Twins x')
    (hforwarder : ∀ y, follow' m.forwarder = some y →
      y.found.type = m.type.build (.assembly m.target)) {x' : Place}
    (hx' : World.inAssembly follow' space name k m.facade.build = some x') :
    ∃ x, World.inAssembly follow space name k m.before.build = some x ∧ x.Twins x' := by
  by_cases hnamed : m.Named space name
  · obtain ⟨rfl, rfl⟩ := hnamed
    obtain ⟨f, hf, hfound⟩ := h.inAssembly_before_named follow k
    rw [h.inAssembly_facade_named] at hx'
    exact ⟨⟨k, f⟩, hfound, Relocation.twins_of_type hf (hforwarder x' hx')⟩
  · have hsame := Relocation.find?_before hnamed
    have hexported := Relocation.findExported?_facade hnamed
    have hname : m.before.build.name = m.facade.build.name := rfl
    refine World.inAssembly_transfer (R := fun x' x => x.Twins x') hname (fun f' hf' => ?_)
      (fun hf' => ?_) hexported.symm (fun e he => hfollow e ?_) hx'
    · rw [hf', Option.map_some] at hsame
      obtain ⟨f, hf, hsame⟩ := Option.map_eq_some_iff.1 hsame
      refine ⟨f, hf, ?_⟩
      rw [Place.Twins, ← hsame]
      exact ((h.pristine k _ ha).find? hf).twins
    · rw [hf', Option.map_none] at hsame
      exact Option.map_eq_none_iff.1 hsame
    · rw [hexported] at he
      exact List.mem_of_find?_eq_some he

theorem spares_exported (h : Relocated m w w') {a : Assembly} (ha : w k = some a) {e : TypeRef}
    (he : e ∈ a.exported) : m.Spares e :=
  h.spared k a ha e (List.mem_append_right _ he)

mutual

theorem lookupStep_forth (h : Relocated m w w')
    (hfollow : ∀ e, m.Spares e → ∀ x, follow e = some x → ∃ x', follow' e = some x' ∧ x.Twins x')
    (hforwarder : ∃ y, follow' m.forwarder = some y ∧
      y.found.type = m.type.build (.assembly m.target)) :
    (t : TypeRef) → m.Spares t → (x : Place) → w.lookupStep follow t = some x →
    ∃ x', w'.lookupStep follow' t = some x' ∧ x.Twins x'
  | .mk space name scope _, ht, x, hx =>
    lookupScope_forth h hfollow hforwarder space name scope ht x hx

theorem lookupScope_forth (h : Relocated m w w')
    (hfollow : ∀ e, m.Spares e → ∀ x, follow e = some x → ∃ x', follow' e = some x' ∧ x.Twins x')
    (hforwarder : ∃ y, follow' m.forwarder = some y ∧
      y.found.type = m.type.build (.assembly m.target)) (space name : String) : (s : Scope) →
    Universe.key s.assemblyName ≠ Universe.key m.target → (x : Place) →
    w.lookupScope follow space name s = some x →
    ∃ x', w'.lookupScope follow' space name s = some x' ∧ x.Twins x'
  | .assembly a, ht, x, hx => by
    rw [World.lookupScope] at hx ⊢
    obtain ⟨b, hb, hx⟩ := Option.bind_eq_some_iff.1 hx
    have hexported : ∀ e ∈ b.exported, ∀ x, follow e = some x →
        ∃ x', follow' e = some x' ∧ x.Twins x' := fun e he =>
      hfollow e (h.spares_exported hb he)
    rcases h.others (Universe.key a) ht with hsame | ⟨hbefore, hfacade⟩
    · rw [hsame, hb]
      exact h.inAssembly_same hb hexported hx
    · rw [hb] at hbefore
      cases hbefore
      rw [hfacade]
      exact h.inAssembly_forth hb hexported hforwarder hx
  | .nested d, ht, x, hx => by
    rw [World.lookupScope] at hx ⊢
    obtain ⟨y, hy, hx⟩ := Option.bind_eq_some_iff.1 hx
    obtain ⟨y', hy', htwins⟩ := lookupStep_forth h hfollow hforwarder d ht y hy
    rw [hy']
    exact htwins.nested? hx

end

mutual

theorem lookupStep_back (h : Relocated m w w')
    (hfollow : ∀ e, m.Spares e → ∀ x', follow' e = some x' → ∃ x, follow e = some x ∧ x.Twins x')
    (hforwarder : ∀ y, follow' m.forwarder = some y →
      y.found.type = m.type.build (.assembly m.target)) :
    (t : TypeRef) → m.Spares t → (x' : Place) → w'.lookupStep follow' t = some x' →
    ∃ x, w.lookupStep follow t = some x ∧ x.Twins x'
  | .mk space name scope _, ht, x', hx' =>
    lookupScope_back h hfollow hforwarder space name scope ht x' hx'

theorem lookupScope_back (h : Relocated m w w')
    (hfollow : ∀ e, m.Spares e → ∀ x', follow' e = some x' → ∃ x, follow e = some x ∧ x.Twins x')
    (hforwarder : ∀ y, follow' m.forwarder = some y →
      y.found.type = m.type.build (.assembly m.target)) (space name : String) : (s : Scope) →
    Universe.key s.assemblyName ≠ Universe.key m.target → (x' : Place) →
    w'.lookupScope follow' space name s = some x' →
    ∃ x, w.lookupScope follow space name s = some x ∧ x.Twins x'
  | .assembly a, ht, x', hx' => by
    rw [World.lookupScope] at hx' ⊢
    obtain ⟨b, hb, hx'⟩ := Option.bind_eq_some_iff.1 hx'
    rcases h.others (Universe.key a) ht with hsame | ⟨hbefore, hfacade⟩
    · rw [hsame] at hb
      rw [hb]
      have hback : ∀ e ∈ b.exported, ∀ x', follow' e = some x' →
          ∃ x, follow e = some x ∧ x'.Twins x := by
        intro e he x' hx'
        obtain ⟨x, hx, htwins⟩ := hfollow e (h.spares_exported hb he) x' hx'
        exact ⟨x, hx, htwins.symm⟩
      obtain ⟨x, hx, htwins⟩ := h.inAssembly_same hb hback hx'
      exact ⟨x, hx, htwins.symm⟩
    · rw [hfacade] at hb
      cases hb
      rw [hbefore]
      exact h.inAssembly_back hbefore
        (fun e he => hfollow e (h.spares_exported hbefore he)) hforwarder hx'
  | .nested d, ht, x', hx' => by
    rw [World.lookupScope] at hx' ⊢
    obtain ⟨y', hy', hx'⟩ := Option.bind_eq_some_iff.1 hx'
    obtain ⟨y, hy, htwins⟩ := lookupStep_back h hfollow hforwarder d ht y' hy'
    rw [hy]
    obtain ⟨x, hx, htwins⟩ := htwins.symm.nested? hx'
    exact ⟨x, hx, htwins.symm⟩

end

theorem lookupWithin_forwarder (h : Relocated m w w') (n : Nat) :
    w'.lookupWithin (n + 1) m.forwarder =
      some ⟨Universe.key m.target, ⟨[0], m.type.build (.assembly m.target)⟩⟩ := by
  have hstep : w'.lookupWithin (n + 1) m.forwarder = (w' (Universe.key m.target)).bind
      (World.inAssembly (w'.lookupWithin n) m.type.space m.type.name (Universe.key m.target)) := rfl
  rw [hstep, h.target, Option.bind_some, World.inAssembly, Relocation.find?_home]

/-- What is found before the move is found after it, by following one exported type more. -/
theorem lookupWithin_forth (h : Relocated m w w') (n : Nat) {t : TypeRef} (ht : m.Spares t)
    {x : Place} (hx : w.lookupWithin n t = some x) :
    ∃ x', w'.lookupWithin (n + 1) t = some x' ∧ x.Twins x' := by
  induction n generalizing t x with
  | zero => cases hx
  | succ n ih =>
    exact h.lookupStep_forth (fun e he y hy => ih he hy) ⟨_, h.lookupWithin_forwarder n, rfl⟩
      t ht x hx

/-- Nothing else is found after the move. -/
theorem lookupWithin_back (h : Relocated m w w') (n : Nat) {t : TypeRef} (ht : m.Spares t)
    {x' : Place} (hx' : w'.lookupWithin n t = some x') :
    ∃ x, w.lookupWithin n t = some x ∧ x.Twins x' := by
  induction n generalizing t x' with
  | zero => cases hx'
  | succ n ih =>
    refine h.lookupStep_back (fun e he y hy => ih he hy) (fun y hy => ?_) t ht x' hx'
    cases n with
    | zero => cases hy
    | succ n =>
      rw [h.lookupWithin_forwarder n] at hy
      cases hy
      rfl

/-! ## What is seen after the move -/

mutual

theorem lookupStep_home (h : Relocated m w w') (follow follow' : TypeRef → Option Place) :
    (t : TypeRef) → ¬m.Spares t → w'.lookupStep follow t = w'.lookupStep follow' t
  | .mk space name scope _, ht => lookupScope_home h follow follow' space name scope ht

/-- Nothing is followed from the assembly that the type has to itself. -/
theorem lookupScope_home (h : Relocated m w w') (follow follow' : TypeRef → Option Place)
    (space name : String) : (s : Scope) →
    ¬Universe.key s.assemblyName ≠ Universe.key m.target →
    w'.lookupScope follow space name s = w'.lookupScope follow' space name s
  | .assembly a, ht => by
    have hkey : Universe.key a = Universe.key m.target := not_not.1 ht
    have hnone : m.home.build.findExported? space name = none := rfl
    rw [World.lookupScope, World.lookupScope, hkey, h.target, Option.bind_some, Option.bind_some,
      World.inAssembly, World.inAssembly, hnone]
  | .nested d, ht => by
    rw [World.lookupScope, World.lookupScope, lookupStep_home h follow follow' d ht]

end

/-- A reference has to follow one exported type more at most. -/
theorem shallow (h : Relocated m w w') {n : Nat} (hw : w.Shallow n) : w'.Shallow (n + 1) := by
  intro k t x' hx'
  by_cases ht : m.Spares t
  · obtain ⟨x, hx, -⟩ := h.lookupWithin_back k ht hx'
    obtain ⟨y', hy', -⟩ := h.lookupWithin_forth n ht (hw k t x hx)
    rwa [World.lookupWithin_unique hx' hy']
  · cases k with
    | zero => cases hx'
    | succ k =>
      have hsame := h.lookupStep_home (w'.lookupWithin k) (w'.lookupWithin n) t ht
      exact hsame.symm.trans hx'

/-- Definitions of one declaration are found before and after the move. -/
theorem lookup_rel (h : Relocated m w w') (hw : w.Shallow Universe.maxForwards) {t : TypeRef}
    (ht : m.Spares t) : Option.Rel Place.Twins (w.lookup t) (w'.lookup t) := by
  cases hx : w.lookup t with
  | some x =>
    obtain ⟨x', hx', htwins⟩ := h.lookupWithin_forth _ ht (hw _ t x hx)
    rw [World.lookup, hx']
    exact .some htwins
  | none =>
    cases hx' : w'.lookup t with
    | none => exact .none
    | some x' =>
      obtain ⟨x, hy, -⟩ := h.lookupWithin_back _ ht hx'
      cases hx.symm.trans hy

theorem sight_eq (h : Relocated m w w') (hw : w.Shallow Universe.maxForwards) {t : TypeRef}
    (ht : m.Spares t) : w'.sight t = w.sight t := by
  have hrel := h.lookup_rel hw ht
  rw [World.sight, World.sight]
  generalize w.lookup t = x at hrel
  generalize w'.lookup t = x' at hrel
  cases hrel with
  | none => rfl
  | some htwins => rw [Option.map_some, Option.map_some, TypeRef.placeless_eq_of_path htwins.path]

end Relocated

end ApiEvolution
