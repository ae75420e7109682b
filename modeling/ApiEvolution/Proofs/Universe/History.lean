import Mathlib
import ApiEvolution.Proofs.Catalog
import ApiEvolution.Proofs.Universe.Naming

/-!
# Histories of a universe

A `History` is a universe with everything that has been asked of it, in order. The references that
it `Supplies` are those that some assembly held while it was kept, and those that are bound to
nothing. What such a reference leads to, be it bound or resolved now, goes by its path, apart from
further declaring types where exported types are nested ones (`History.path_of_leadsTo`).
-/

namespace ApiEvolution

open Universe

/-! ## Histories -/

/-- Something that is asked of a universe. -/
inductive Call where
  | loadPrimary (path : Path)
  | resolveAssembly (name : AssemblyName)
  | resolveType (t : TypeRef)

/-- What becomes of a universe that is asked. -/
def Call.run (read : Reader) (u : Universe) : Call → Universe
  | loadPrimary path => ((Universe.loadPrimary read path).run u).2
  | resolveAssembly name => ((Universe.resolveAssembly read name).run u).2
  | resolveType t => ((Universe.resolveType read t).run u).2

/-- A universe by what it reads and what has been asked of it, in order. -/
structure History where
  read : Reader
  context : Nat
  referencePaths : List Path
  calls : List Call

namespace History

/-- The universe after the given calls. -/
def after (h : History) (calls : List Call) : Universe :=
  calls.foldl (Call.run h.read) { context := h.context, referencePaths := h.referencePaths }

/-- The universe after all of them. -/
def now (h : History) : Universe :=
  h.after h.calls

/-- The references that come from the universe: those in assemblies that it kept at some time, the
same with definitions given up, and those that are bound to nothing. -/
inductive Supplies (h : History) : TypeRef → Prop
  | held {past : List Call} {l : Loaded} {r : TypeRef} (hpast : past <+: h.calls)
    (hl : l ∈ (h.after past).assemblies) (hr : r ∈ l.assembly.references) : Supplies h r
  | released {r : TypeRef} (kept : DefinitionId → Bool) (hr : Supplies h r) :
    Supplies h (r.release kept)
  | topLevel {space name : String} {a : AssemblyName} {binding : Binding}
    (hbinding : ∀ id d, binding ≠ .resolved id d) :
    Supplies h (.mk space name (.assembly a) binding)
  | nested {space name : String} {declaring : TypeRef} {binding : Binding}
    (hbinding : ∀ id d, binding ≠ .resolved id d) (hdeclaring : Supplies h declaring) :
    Supplies h (.mk space name (.nested declaring) binding)

/-- The reference is bound to the definition `d`, or the universe resolves it to `d`. -/
def LeadsTo (h : History) (r d : TypeRef) : Prop :=
  (∃ id, r.binding = .resolved id d) ∨
    ∃ e, ((resolveType h.read r).run h.now).1 = some e ∧ e.type.descriptor = d

variable {upright : Prop} {h : History} {r : TypeRef}

/-- Whatever is asked of a universe, it goes on recording. -/
theorem records_foldl {read : Reader} (hread : ReadsBuilt upright read) (calls : List Call)
    {c : Chronicle} {u : Universe} (hu : u.Records upright c) :
    ∃ c', c.Extends c' ∧ (calls.foldl (Call.run read) u).Records upright c' := by
  induction calls generalizing c u with
  | nil => exact ⟨c, .refl c, hu⟩
  | cons call calls ih =>
    obtain ⟨c', hle, hv⟩ : ∃ c', c.Extends c' ∧ (call.run read u).Records upright c' := by
      cases call with
      | loadPrimary path =>
        obtain ⟨c', hle, hv, -⟩ := loadPrimary_keeps hread path c u hu
        exact ⟨c', hle, hv⟩
      | resolveAssembly name =>
        obtain ⟨c', hle, hv, -⟩ := resolveAssembly_finds hread name c u hu
        exact ⟨c', hle, hv⟩
      | resolveType t =>
        obtain ⟨c', hle, hv, -⟩ := resolveType_finds hread t c u hu
        exact ⟨c', hle, hv⟩
    obtain ⟨c'', hle', hw⟩ := ih hv
    exact ⟨c'', hle.trans hle', hw⟩

theorem records_after (h : History) (hread : ReadsBuilt upright h.read) (past : List Call) :
    ∃ c, (h.after past).Records upright c := by
  obtain ⟨c, -, hc⟩ := records_foldl hread past (c := ⟨h.context, []⟩)
    (u := { context := h.context, referencePaths := h.referencePaths })
    ⟨rfl, rfl, fun _ ha => absurd ha List.not_mem_nil, fun _ hl => absurd hl List.not_mem_nil⟩
  exact ⟨c, hc⟩

/-- The references that a universe supplies are bound aptly. -/
theorem Supplies.apt (hr : h.Supplies r) (hread : ReadsBuilt upright h.read) :
    ∃ c, h.now.Records upright c ∧ r.Apt upright c := by
  induction hr with
  | held hpast hl hr =>
    obtain ⟨rest, hrest⟩ := hpast
    -- the reference was apt while the assembly was kept, and the chronicle has only grown since
    obtain ⟨c, hc⟩ := h.records_after hread _
    obtain ⟨c', hle, hc'⟩ := records_foldl hread rest hc
    refine ⟨c', ?_, ((hc.keeps _ hl).references _ hr).mono hle⟩
    rwa [now, ← hrest, after, List.foldl_append]
  | released kept _ ih =>
    obtain ⟨c, hc, hapt⟩ := ih
    exact ⟨c, hc, hapt.release kept⟩
  | topLevel hbinding =>
    obtain ⟨c, hc⟩ := h.records_after hread h.calls
    exact ⟨c, hc, trivial, fun id d hd => absurd hd (hbinding id d)⟩
  | nested hbinding _ ih =>
    obtain ⟨c, hc, hapt⟩ := ih
    exact ⟨c, hc, hapt, fun id d hd => absurd hd (hbinding id d)⟩

theorem names_of_leadsTo (hread : ReadsBuilt upright h.read) (hr : h.Supplies r) {d : TypeRef}
    (hd : h.LeadsTo r d) : Names upright r.path d.path := by
  obtain ⟨c, hc, hapt⟩ := hr.apt hread
  rcases hd with ⟨id, hbinding⟩ | ⟨e, he, rfl⟩
  · obtain ⟨space, name, scope, binding⟩ := r
    exact (hapt.2 id d hbinding).2
  · obtain ⟨c', hle, -, hfound⟩ := resolveType_finds hread r c h.now hc
    exact (hfound e he).2 (hapt.mono hle)

/-- Resolution keeps names: the path of what a reference leads to begins with the path of the
reference. It is the same path, and so the same full name, if no exported type that can be looked up
is nested, unless it points back to its own assembly. -/
theorem path_of_leadsTo (hread : ∀ p a, h.read p = .ok a → a.Built) (hr : h.Supplies r) {d : TypeRef}
    (hd : h.LeadsTo r d) : r.path <+: d.path ∧
      ((∀ p a, h.read p = .ok a → a.Upright) → d.path = r.path ∧ d.fullName = r.fullName) := by
  have hnames : Names (∀ p a, h.read p = .ok a → a.Upright) r.path d.path :=
    names_of_leadsTo (fun p a ha => ⟨hread p a ha, fun hupright => hupright p a ha⟩) hr hd
  refine ⟨hnames.isPrefix, fun hupright => ?_⟩
  have hpath := hnames.eq hupright
  exact ⟨hpath, TypeRef.fullName_eq_of_path d r hpath⟩

/-! ## Exported types of either kind -/

theorem supplies_topLevel (h : History) (a : AssemblyName) (space name : String) :
    h.Supplies (.topLevel a space name) :=
  .topLevel fun _ _ hno => by cases hno

def typeOfA (name : String) : TypeRef :=
  .topLevel (.simple "A") "" name

def definitionInE (name : String) : TypeRef :=
  .mk "" name (.assembly (.simple "E")) .definition

/-- A class whose type parameter has a constraint. -/
def userOf (constraint : TypeRef) : TypeDeclaration :=
  (TypeDeclaration.publicClass "" "User").generic
    { name := "X", constraints := [.named constraint] }

/-- The primary assembly `P` refers to a type of `A`, which has nothing but an exported type of that
name, and `E` has nothing but the type `t`. -/
def forwarding (e : TypeRef) (t : TypeDeclaration) : History where
  read := (Catalog.of [("P", [userOf (typeOfA e.name)], []), ("A", [], [e]), ("E", [t], [])]).reader
  context := 0
  referencePaths := [⟨"A"⟩, ⟨"E"⟩]
  calls := [.loadPrimary ⟨"P"⟩]

variable {e : TypeRef} {t : TypeDeclaration}

theorem built_forwarding (he : e.detached = e) (ht : (t.build (.assembly (.simple "E"))).refs = [])
    (p : Path) (a : Assembly) (ha : (forwarding e t).read p = .ok a) : a.Built := by
  refine Catalog.built_of (fun b hb r hr => ?_) p a ha
  simp only [List.mem_cons, List.not_mem_nil, or_false] at hb
  rcases hb with rfl | rfl | rfl
  · rw [List.mem_singleton.1 hr]
    rfl
  · rwa [List.mem_singleton.1 hr]
  · have hnone : (Assembly.of "E" [t] []).references = [] := by
      have hrefs : TypeDefinition.refsOf [t.build (.assembly (.simple "E"))] = [] := by
        rw [TypeDefinition.refsOf, ht]
        rfl
      exact congrArg (· ++ []) hrefs
    rw [hnone] at hr
    cases hr

theorem upright_forwarding (he : e.declaring? = none) (p : Path) (a : Assembly)
    (ha : (forwarding e t).read p = .ok a) : a.Upright := by
  obtain ⟨b, hb, rfl⟩ := Catalog.mem_of_reader ha
  intro space name r _ hr
  have hmem := List.mem_of_find?_eq_some hr
  rcases List.mem_cons.1 hb with rfl | hb
  · cases hmem
  · rcases List.mem_cons.1 hb with rfl | hb
    · rw [List.mem_singleton.1 hmem]
      exact .inl he
    · rw [List.mem_singleton.1 hb] at hmem
      cases hmem

/-- An exported type that is declared at the top level of `E`. -/
def moved : History :=
  forwarding (.topLevel (.simple "E") "" "T") (.hidden "T")

/-- An exported type that is nested in the type `Shell` of `E`. -/
def nestedAway : History :=
  forwarding (.mk "" "Inner" (.nested (.topLevel (.simple "E") "" "Shell")) .unbound)
    ((TypeDeclaration.hidden "Shell").nest (.hidden "Inner"))

def innerDefinition : TypeRef :=
  .mk "" "Inner" (.nested (definitionInE "Shell")) .definition

theorem leadsTo_moved : moved.LeadsTo (typeOfA "T") (definitionInE "T") := by
  have hfound : ((resolveType moved.read (typeOfA "T")).run moved.now).1.map
      (·.type.descriptor) = some (definitionInE "T") := by cbv
  exact .inr (Option.map_eq_some_iff.1 hfound)

theorem path_of_leadsTo_moved : (definitionInE "T").path = (typeOfA "T").path ∧
    (definitionInE "T").fullName = (typeOfA "T").fullName :=
  (path_of_leadsTo (built_forwarding rfl rfl) (supplies_topLevel moved _ _ _) leadsTo_moved).2
    (upright_forwarding rfl)

/-- A reference to a top-level type may lead to a nested type. -/
theorem exists_leadsTo_path_ne :
    (∀ p a, nestedAway.read p = .ok a → a.Built) ∧ nestedAway.Supplies (typeOfA "Inner") ∧
      nestedAway.LeadsTo (typeOfA "Inner") innerDefinition ∧
      innerDefinition.path ≠ (typeOfA "Inner").path := by
  have hfound : ((resolveType nestedAway.read (typeOfA "Inner")).run nestedAway.now).1.map
      (·.type.descriptor) = some innerDefinition := by cbv
  exact ⟨built_forwarding rfl rfl, supplies_topLevel _ _ _ _,
    .inr (Option.map_eq_some_iff.1 hfound), by decide⟩

end History

end ApiEvolution
