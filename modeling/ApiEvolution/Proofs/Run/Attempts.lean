import ApiEvolution.Proofs.Catalog
import ApiEvolution.Proofs.Pairing.Localized
import ApiEvolution.Proofs.Run.Loading
import ApiEvolution.Proofs.Universe.Tally

/-!
# Every reference is attempted once

When a build has been loaded, every reference of the assemblies that were read is bound to a
definition that is kept, or marked as leading nowhere, and each mark was reported (`Build.load_run`,
`Tally`). Therefore the tree that is made of these assemblies finds nothing left to bind: all it
reports are exported types without a definition (`Build.load_attempts`).
-/

namespace ApiEvolution

open Universe Passage

/-- The reference has been looked up: it is marked, or bound to a definition that is kept. The
descriptor of a definition need not be. -/
def Universe.Attempted (u : Universe) (t : TypeRef) : Prop :=
  t.isDefinition ∨ t.isUnresolved ∨ ∃ id, t.target? = some id ∧ (u.definition? id).isSome

variable {w : World} {read : Reader} {u : Universe} {paths : List Path}

/-! ## What was loaded -/

/-- Everything that is kept is remembered under one name. -/
theorem Universe.Sound.loaded_perm (h : u.Sound w read []) {n : Nat} (htally : Tally paths [] n u) :
    u.loaded.Perm u.assemblies := by
  have hassemblies : u.assemblies.Nodup := .of_map _ htally.ids
  have hloaded : u.loaded.Nodup := by
    refine List.pairwise_filterMap.2 ((List.pairwise_map.1 htally.names).imp_of_mem ?_)
    rintro ⟨k, entry⟩ ⟨k', entry'⟩ hk hk' hne l hl _ hl' rfl
    obtain ⟨id, rfl, hid⟩ := Option.bind_eq_some_iff.1 hl
    obtain ⟨id', rfl, hid'⟩ := Option.bind_eq_some_iff.1 hl'
    -- an assembly that is remembered under two names would have them equal
    obtain rfl : id' = id := (assembly?_id hid').symm.trans (assembly?_id hid)
    exact hne (h.apart k' k id' (htally.remembered? hk') (htally.remembered? hk))
  refine (List.perm_ext_iff_of_nodup hloaded hassemblies).2 fun l => ?_
  rw [loaded, List.mem_filterMap]
  constructor
  · rintro ⟨entry, -, hl⟩
    obtain ⟨id, -, hid⟩ := Option.bind_eq_some_iff.1 hl
    exact List.mem_of_find?_eq_some hid
  · intro hl
    obtain ⟨k, hk⟩ := h.named l hl
    obtain ⟨_, _, hnames, -⟩ := List.lookup_eq_some_iff.1 hk
    refine ⟨(k, some l.id), ?_, ?_⟩
    · rw [hnames]
      exact List.mem_append_right _ List.mem_cons_self
    · rw [Option.bind_some, htally.assembly? hl]

/-- What is loaded is kept, with all its references answered. -/
theorem Universe.Sound.settled_of_mem_assemblies (h : u.Sound w read []) {l : Loaded}
    (hl : l ∈ u.assemblies) (hkept : u.assembly? l.id = some l) :
    ∃ k a, w k = some a ∧ w.Settled u a l.assembly := by
  obtain ⟨k, hk⟩ := h.named l hl
  obtain ⟨a, -, ha, -⟩ := h.present k l.id hk
  exact ⟨k, a, ha, h.settled k l.id a l hk ha hkept List.not_mem_nil⟩

/-- What a reference was answered by has been attempted. -/
theorem Universe.Sound.attempted (h : u.Sound w read []) {t t' : TypeRef} (ht : t.detached = t)
    (hanswered : w.Answered u t t') : u.Attempted t' := by
  cases hanswered with
  | kept hbound =>
    obtain ⟨space, name, scope, binding⟩ := t
    cases binding with
    | definition => exact .inl rfl
    | unbound => cases hbound
    | _ => simp [TypeRef.detached, Binding.detached] at ht
  | unresolved => exact .inr (.inl rfl)
  | resolved _ hx hid =>
    obtain ⟨n, hlookup⟩ := hx.lookup
    obtain ⟨type, htype, -⟩ := h.definition? hid (World.located_of_lookupWithin hlookup)
    exact .inr (.inr ⟨_, rfl, by rw [htype]; rfl⟩)

/-! ## What is left to notice -/

variable {l : Loaded}

/-- A reference that has been attempted is left alone, and nothing is said about it. -/
theorem Universe.Attempted.passes_bindLocally {t : TypeRef} (ht : u.Attempted t) :
    still.Passes (fun _ (n : Noticed) => n.diagnostics = []) (ApiEvolution.bindLocally l t) t := by
  intro g n hn
  obtain ⟨space, name, scope, binding⟩ := t
  cases binding with
  | unbound =>
    rcases ht with hno | hno | ⟨_, hno, -⟩ <;> cases hno
  | dropped =>
    rcases ht with hno | hno | ⟨_, hno, -⟩ <;> cases hno
  | _ => exact ⟨g, trivial, hn, _, .single rfl, rfl⟩

/-- Nothing is said about the references of an assembly that have all been attempted. -/
theorem Loaded.noticed_diagnostics (h : ∀ t ∈ l.assembly.typeRefs, u.Attempted t) :
    l.noticed.diagnostics = [] := by
  have htypes : ∀ m ∈ l.assembly.modules, still.Ensures (fun _ (n : Noticed) => n.diagnostics = [])
      (do return { m with types := ← TypeDefinition.traverseAll (ApiEvolution.bindLocally l) m.types })
      fun _ _ => True := by
    intro m hm g n hn
    have hrefs : ∀ t ∈ TypeDefinition.refsOf m.types, u.Attempted t := by
      intro t ht
      refine h t ?_
      rw [TypeDefinition.refsOf_eq] at ht
      obtain ⟨d, hd, ht⟩ := List.mem_flatMap.1 ht
      rw [Assembly.typeRefs, TypeDefinition.refsOf_eq]
      exact List.mem_flatMap.2 ⟨d, List.mem_flatMap.2 ⟨m, hm, hd⟩, ht⟩
    have hpasses := passes_types (f := ApiEvolution.bindLocally l) m.types
      (fun t ht => (hrefs t ht).passes_bindLocally) g n hn
    exact ensuresFrom_bind hpasses fun _ _ _ _ hn' _ => ensuresFrom_pure hn' trivial
  obtain ⟨_, -, hquiet, -⟩ := ensures_all htypes () {} rfl
  rw [noticed, bindLocally, StateT.run_bind]
  exact hquiet

/-- An exported type is without a definition exactly if it is bound to none. -/
theorem Loaded.brokenExports_bound (definitions : DefinitionId → Option TypeDefinition)
    (halive : ∀ id, (u.definition? id).isSome → (definitions id).isSome)
    (h : ∀ t ∈ l.assembly.exported, u.Attempted t) :
    l.bound.brokenExports definitions =
      (l.assembly.exported.filter (·.target?.isNone)).map fun t =>
        ⟨.exportUnresolved t.fullName, some l.assembly.name.name⟩ := by
  have hname : l.bound.assembly.name = l.assembly.name := by rw [l.bound_spec.1]
  rw [brokenExports, l.exported_bound, hname]
  congr 1
  refine List.filter_congr fun t ht => ?_
  rw [Selection.forwarded?]
  cases hid : t.target? with
  | none => rfl
  | some id =>
    have hdefinition : (definitions id).isSome := by
      obtain ⟨space, name, scope, binding⟩ := t
      cases binding with
      | resolved id' d =>
        obtain rfl : id' = id := Option.some.inj hid
        rcases h _ ht with hno | hno | ⟨_, hsame, hkept⟩
        · cases hno
        · cases hno
        · obtain rfl := Option.some.inj hsame
          exact halive _ hkept
      | _ => cases hid
    rw [Option.bind_some, Option.isNone_map, Option.isNone_some, Option.isNone_eq_false_iff]
    exact hdefinition

namespace Build

variable {b : Build} {a : Assembly}

/-- Before its references are bound, nothing is marked or reported. -/
theorem started_tally (b : Build) (a : Assembly) (context : Nat) :
    Tally b.references [⟨context, 0⟩] 0 (b.started context a) :=
  ⟨rfl, List.nodup_singleton _, List.nodup_singleton _, List.forall_mem_singleton.2 Nat.one_pos,
    List.forall_mem_singleton.2 List.mem_cons_self, by simp [failures, settledMarks, started]⟩

/-- The assembly of a build is kept, and reports and marks are even. -/
theorem load_kept (context : Nat) (hread : b.Reads read fun a => a.detached = a)
    (ha : read b.assembly = .ok a) : ∃ c u, b.load read context = (.ok c, u) ∧
      u.Sound (b.world read a) read [] ∧ u.assembly? c.id = some c ∧
      Tally b.references [] 0 u := by
  have hfresh := world_fresh hread ha
  have hdetached := hread _ List.mem_cons_self a ha
  have hentry : (b.started context a).remembered? (key a.name) = some (some ⟨context, 0⟩) :=
    (started_remembered? context _).trans (if_pos rfl)
  obtain ⟨c, u, hrun, hu, -, hkept, -⟩ := bindAssembly_run (resolveAssembly_resolves hfresh _)
    hfresh (started_sound context) (Nat.le_refl _) hentry world_own (started_assembly? context)
  have hsteady : Steady b.references (resolveAssembly read) :=
    steady_resolveAssembly fun p hp => hread p (List.mem_cons_of_mem _ hp)
  have htally := (started_tally b a context).bindAssembly hsteady List.not_mem_nil fun t ht =>
    Assembly.detached_of_mem_references hdetached ht
  rw [hrun] at htally
  exact ⟨_, u, by rw [load_eq context ha hdetached, hrun], hu, hkept, htally⟩

/-- After a build has been loaded, every reference of the assemblies that were read has been looked
up, and there are as many reports of references that lead nowhere as marked references. A tree that
one of these assemblies enters as long as what was loaded is kept notices nothing about references,
but each exported type that is bound to no definition. -/
theorem load_attempts {context : Nat} {c : Loaded} (hread : b.Reads read fun a => a.detached = a)
    (hload : b.load read context = (.ok c, u)) :
    c ∈ u.loaded ∧
    (∀ l ∈ u.loaded, ∀ t ∈ l.assembly.references, u.Attempted t) ∧
    u.diagnostics.countP (·.isFailure) =
      (u.loaded.flatMap (·.assembly.references)).countP (·.isUnresolved) ∧
    ∀ l ∈ u.loaded, ∀ definitions : DefinitionId → Option TypeDefinition,
      (∀ id, (u.definition? id).isSome → (definitions id).isSome) → ∀ (tree : SurfaceTree) side,
        (tree.enter definitions l side).diagnostics =
          tree.diagnostics ++ (l.assembly.exported.filter (·.target?.isNone)).map fun t =>
            ⟨.exportUnresolved t.fullName, some l.assembly.name.name⟩ := by
  cases ha : read b.assembly with
  | error e =>
    rw [load, loadPrimary_run_error ha] at hload
    cases hload
  | ok a =>
    obtain ⟨c', u', hrun, hu, hkept, htally⟩ := load_kept context hread ha
    obtain ⟨hc, rfl⟩ := Prod.mk.inj (hrun.symm.trans hload)
    obtain rfl := Except.ok.inj hc
    have hperm := hu.loaded_perm htally
    have hattempted : ∀ l ∈ u'.loaded, ∀ t ∈ l.assembly.references, u'.Attempted t := by
      intro l hl t ht
      have hmem := hperm.mem_iff.1 hl
      obtain ⟨k, a', hk, hsettled⟩ := hu.settled_of_mem_assemblies hmem (htally.assembly? hmem)
      obtain ⟨t₀, ht₀, hanswered⟩ := hsettled.exists_answered ht
      exact hu.attempted (world_fresh hread ha k a' hk t₀ ht₀) hanswered
    refine ⟨hperm.mem_iff.2 (List.mem_of_find?_eq_some hkept), hattempted, ?_, ?_⟩
    · exact htally.marks_eq.trans ((hperm.flatMap_right _).countP_eq _).symm
    · intro l hl definitions halive tree side
      have hall := hattempted l hl
      have hquiet := Loaded.noticed_diagnostics fun t ht => hall t (List.mem_append_left _ ht)
      have hbroken := Loaded.brokenExports_bound definitions halive fun t ht =>
        hall t (List.mem_append_right _ ht)
      show tree.diagnostics ++ l.noticed.diagnostics ++ l.bound.brokenExports definitions = _
      rw [hquiet, hbroken, List.append_nil]

/-- Two assemblies that refer to each other and to types that the other one does not have, and a
type that is forwarded to nowhere. -/
def lossyAssemblies : List (String × List TypeDeclaration × List TypeRef) :=
  [("App", [.box [.topLevel (.simple "Lib") "" "Box", .topLevel (.simple "Lib") "" "Gone"]],
      [.topLevel (.simple "Lost") "" "Moved"]),
    ("Lib", [.box [.topLevel (.simple "App") "" "Box", .topLevel (.simple "App") "" "Moved"]], [])]

def lossyReader : Reader :=
  (Catalog.of lossyAssemblies).reader

def lossy : Build :=
  ⟨"lossy", ⟨"App"⟩, [⟨"Lib"⟩]⟩

theorem reads_lossy : lossy.Reads lossyReader fun a => a.detached = a := by
  intro p _ a ha
  refine (Catalog.built_of (fun e he r hr => ?_) p a ha).unbound
  simp only [lossyAssemblies, List.mem_cons, List.not_mem_nil, or_false] at he
  rcases he with rfl | rfl
  · have hr : r ∈ [TypeRef.topLevel (.simple "Lib") "" "Box", .topLevel (.simple "Lib") "" "Gone",
        .topLevel (.simple "Lost") "" "Moved"] := hr
    simp only [List.mem_cons, List.not_mem_nil, or_false] at hr
    rcases hr with rfl | rfl | rfl <;> rfl
  · have hr : r ∈ [TypeRef.topLevel (.simple "App") "" "Box",
        .topLevel (.simple "App") "" "Moved"] := hr
    simp only [List.mem_cons, List.not_mem_nil, or_false] at hr
    rcases hr with rfl | rfl <;> rfl

theorem load_attempts_lossy : ∃ c u, lossy.load lossyReader 0 = (.ok c, u) ∧
    u.diagnostics.countP (·.isFailure) = 3 ∧
    (u.loaded.flatMap (·.assembly.references)).countP (·.isUnresolved) = 3 ∧
    (SurfaceTree.single .visible u.definition? c .left).diagnostics =
      [⟨.exportUnresolved "Moved", some "App"⟩] := by
  have hreports : (lossy.load lossyReader 0).2.diagnostics.countP (·.isFailure) = 3 := by
    decide +kernel
  have hexported : ((lossy.load lossyReader 0).1.toOption.map fun c =>
      (c.assembly.exported.filter (·.target?.isNone)).map fun t =>
        (⟨.exportUnresolved t.fullName, some c.assembly.name.name⟩ : Diagnostic)) =
      some [⟨.exportUnresolved "Moved", some "App"⟩] := by
    decide +kernel
  obtain ⟨c, u, hload⟩ : ∃ c u, lossy.load lossyReader 0 = (.ok c, u) := by
    obtain ⟨c, u, hload, -⟩ := load_kept 0 reads_lossy rfl
    exact ⟨c, u, hload⟩
  rw [hload] at hreports hexported
  obtain ⟨hc, -, hcounts, htree⟩ := load_attempts reads_lossy hload
  have hdiagnostics := htree c hc u.definition? (fun _ h => h)
    ⟨.visible, .single c .left, .empty, [], []⟩ .left
  exact ⟨c, u, hload, hreports, hcounts.symm.trans hreports,
    hdiagnostics.trans (Option.some.inj hexported)⟩

end Build

end ApiEvolution
