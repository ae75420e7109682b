import ApiEvolution.Proofs.Pairing.Copies
import ApiEvolution.Proofs.Run.Isolation
import ApiEvolution.Proofs.Run.Surface

/-!
# A build and itself

Both sides of a job may read the same files. Each side loads copies of its own, in a context of its
own, and binds them itself; but what the one side binds the other binds alike, so the right side is
the left one in the next context (`Build.load_renamed`). Hence nothing differs, whatever references
and exported types lead to, as long as the definitions that take part are told apart
(`Job.differences_unchanged`).
-/

namespace ApiEvolution

/-! ## Descriptors of what is loaded -/

mutual

theorem TypeRef.faithful_detached : (t : TypeRef) → t.detached.Faithful
  | .mk space name scope binding => by
    have hscope := Scope.faithful_detached scope
    cases binding <;> exact hscope

theorem Scope.faithful_detached : (s : Scope) → s.detached.Faithful
  | .assembly _ => trivial
  | .nested d => TypeRef.faithful_detached d

end

/-- The type has the descriptors of an unbound one, and so have the types nested in it. -/
def TypeDefinition.Plain (t : TypeDefinition) : Prop :=
  ∃ t₀ : TypeDefinition, t₀.detached = t₀ ∧ t.outline = t₀.outline

namespace TypeDefinition.Plain

variable {t u : TypeDefinition}

theorem of_outline (h : t.Plain) (hu : u.outline = t.outline) : u.Plain := by
  obtain ⟨t₀, ht₀, hout⟩ := h
  exact ⟨t₀, ht₀, hu.trans hout⟩

theorem faithful (h : t.Plain) : t.descriptor.Faithful := by
  obtain ⟨t₀, ht₀, hout⟩ := h
  rw [descriptor_eq_of_outline hout, ← ht₀, descriptor_detached]
  exact TypeRef.faithful_detached t₀.descriptor

theorem nestedTypes (h : t.Plain) (hu : u ∈ t.nestedTypes) : u.Plain := by
  obtain ⟨t₀, ht₀, hout⟩ := h
  have hnested : t.nestedTypes.map outline = t₀.nestedTypes.map outline := by
    rw [← nestedTypes_outline, hout, nestedTypes_outline]
  obtain ⟨u₀, hu₀, hsame⟩ := List.mem_map.1 (hnested ▸ List.mem_map_of_mem hu)
  have hdetached : t₀.nestedTypes.map detached = t₀.nestedTypes.map id := by
    rw [← nestedTypes_detached, ht₀, List.map_id]
  exact ⟨u₀, List.map_inj_left.1 hdetached u₀ hu₀, hsame.symm⟩

end TypeDefinition.Plain

namespace Assembly

variable {R : TypeRef → TypeRef → Prop} {a b : Assembly} {t : TypeDefinition}

theorem plain_topLevel (ha : a.detached = a) (ht : t ∈ a.topLevel) : t.Plain := by
  have hdetached : a.topLevel.map TypeDefinition.detached = a.topLevel.map id := by
    rw [← topLevel_detached, ha, List.map_id]
  exact ⟨t, List.map_inj_left.1 hdetached t ht, rfl⟩

theorem plain_definitionAt? (ha : a.detached = a) {p : List Nat} (ht : a.definitionAt? p = some t) :
    t.Plain := by
  have hdetached := a.definitionAt?_detached p
  rw [ha, ht, Option.map_some] at hdetached
  exact ⟨t, (Option.some.inj hdetached).symm, rfl⟩

theorem Mirrors.plain_topLevel (h : a.Mirrors R b) (ha : ∀ t ∈ a.topLevel, t.Plain)
    (ht : t ∈ b.topLevel) : t.Plain := by
  obtain ⟨t₀, ht₀, hout⟩ := List.mem_map.1 (h.topLevel ▸ List.mem_map_of_mem ht)
  exact (ha t₀ ht₀).of_outline hout.symm

theorem Mirrors.plain_definitionAt? (h : a.Mirrors R b) (ha : a.detached = a) {p : List Nat}
    (ht : b.definitionAt? p = some t) : t.Plain := by
  have hout := h.definitionAt? p
  rw [ht, Option.map_some] at hout
  obtain ⟨t₀, ht₀, hsame⟩ := Option.map_eq_some_iff.1 hout.symm
  exact (Assembly.plain_definitionAt? ha ht₀).of_outline hsame.symm

end Assembly

/-- Binding an assembly to itself leaves its outlines and its exported types. -/
theorem Loaded.mirrors_bound (l : Loaded) : l.assembly.Mirrors Eq l.bound.assembly := by
  rw [l.bound_spec.1]
  refine ⟨rfl, List.forall₂_map_right_iff.2 (List.forall₂_same.2 fun m _ => ⟨?_, ?_⟩)⟩
  · show (TypeDefinition.rebindAll l.localize m.types).map TypeDefinition.outline = _
    rw [← TypeDefinition.outlineAll_eq, TypeDefinition.outlineAll_rebindAll,
      TypeDefinition.outlineAll_eq]
  · exact List.forall₂_same.2 fun _ _ => rfl

/-! ## What a build brings -/

/-- What a reference is bound to has been read. -/
theorem World.Settled.remembered_target {w : World} {u : Universe} {a c : Assembly}
    (h : w.Settled u a c) (ha : ∀ t ∈ a.references, t.detached = t) {t : TypeRef}
    (ht : t ∈ c.references) {id : DefinitionId} (hid : t.target? = some id) :
    ∃ k, u.remembered? k = some (some id.assembly) := by
  obtain ⟨t₀, ht₀, hanswered⟩ := h.exists_answered ht
  obtain ⟨d, hd⟩ : ∃ d, t.binding = .resolved id d := by
    obtain ⟨space, name, scope, binding⟩ := t
    cases binding with
    | resolved id' d =>
      cases hid
      exact ⟨d, rfl⟩
    | _ => cases hid
  obtain ⟨x, -, hx, -⟩ := World.Refers.resolved (.inr hanswered) (ha t₀ ht₀) hd
  exact ⟨x.key, Option.join_eq_some_iff.1 hx⟩

namespace Build

variable {b : Build} {read : Reader} {a : Assembly}

/-- The definitions of a build that take part. -/
def brought (b : Build) (read : Reader) (s : Selection) : List Definition :=
  match b.load read 0 with
  | (.ok l, u) => s.registered u.definition? l.bound
  | (.error _, _) => []

/-- Exported types of a loaded build lead to its own universe, and the descriptors of what it brings
are bound to nothing. -/
theorem load_plain (hread : b.Reads read fun c => c.detached = c) (ha : read b.assembly = .ok a) :
    ∃ l u, b.load read 0 = (.ok l, u) ∧ u.context = 0 ∧
      (∀ t ∈ l.bound.assembly.exported, ∀ id, t.target? = some id → id.assembly.context = 0) ∧
      ∀ s : Selection, ∀ d ∈ s.registered u.definition? l.bound, d.type.Plain := by
  obtain ⟨c, u, hrun, hu, hprecedes, hsettled⟩ := load_run 0 hread ha
  have hcontext : u.context = 0 := hprecedes.context
  have hdetached : a.detached = a := hread _ List.mem_cons_self _ ha
  have htarget : ∀ t ∈ c.exported, ∀ id, t.target? = some id →
      ∃ k, u.remembered? k = some (some id.assembly) :=
    fun t ht id hid => hsettled.remembered_target (world_fresh hread ha _ a world_own)
      (List.mem_append_right _ ht) hid
  have hexported : (Loaded.mk ⟨0, 0⟩ c).bound.assembly.exported = c.exported :=
    Loaded.exported_bound _
  refine ⟨_, u, hrun, hcontext, fun t ht id hid => ?_, fun s d hd => ?_⟩
  · rw [hexported] at ht
    obtain ⟨k, hk⟩ := htarget t ht id hid
    obtain ⟨_, l, -, hl, -⟩ := hu.present k id.assembly hk
    rw [← Universe.assembly?_id hl, ← hcontext]
    exact (hu.fresh l (List.mem_of_find?_eq_some hl)).1
  · have hsurface : d.type ∈ s.surface u.definition? (Loaded.mk ⟨0, 0⟩ c).bound.assembly :=
      s.registered_types u.definition? _ ▸ List.mem_map_of_mem hd
    have hown : ∀ t ∈ c.topLevel, t.Plain := fun t ht =>
      hsettled.mirrors.plain_topLevel (fun _ => Assembly.plain_topLevel hdetached) ht
    obtain ⟨m, hm, hd⟩ := List.mem_flatMap.1 hsurface
    rcases List.mem_append.1 hd with hd | hd <;>
      refine Selection.forall_visitAll (fun _ ht _ => ht.nestedTypes) _ (fun t ht => ?_) _ hd
    · have hmem : t ∈ (Loaded.mk ⟨0, 0⟩ c).bound.assembly.topLevel :=
        List.mem_flatMap.2 ⟨m, hm, ht⟩
      exact (Loaded.mirrors_bound ⟨⟨0, 0⟩, c⟩).plain_topLevel hown hmem
    · obtain ⟨e, he, ht⟩ := List.mem_filterMap.1 ht
      obtain ⟨id, hid, ht⟩ := Option.bind_eq_some_iff.1 ht
      have hmem : e ∈ c.exported := hexported ▸ List.mem_flatMap.2 ⟨m, hm, he⟩
      obtain ⟨k, hk⟩ := htarget e hmem id hid
      obtain ⟨a', l, ha', hl, hmirrors⟩ := hu.present k id.assembly hk
      rw [Universe.definition?, hl, Option.bind_some] at ht
      exact hmirrors.plain_definitionAt? (hread.of_world ha ha') ht

end Build

/-! ## The same files on both sides -/

namespace Renaming

/-- The same assemblies in the next context. -/
def next : Renaming :=
  { identity with context := Nat.succ, injective := Nat.succ_injective }

theorem type_identity (t : TypeDefinition) : identity.type t = t := by
  rw [type, funext ref_identity]
  exact t.map_id

theorem definition_identity (d : Definition) : identity.definition d = d :=
  congrArg (Definition.mk d.id) (type_identity d.type)

end Renaming

namespace Selection

variable {s : Selection} {l : Loaded}
variable {definitions definitions' : DefinitionId → Option TypeDefinition}

/-- Of the definitions that there are, only those matter that exported types lead to. -/
theorem registered_congr
    (h : ∀ t ∈ l.assembly.exported, ∀ id, t.target? = some id → definitions' id = definitions id) :
    s.registered definitions' l = s.registered definitions l := by
  have hforwarded : ∀ m ∈ l.assembly.modules,
      m.exported.filterMap (forwarded? definitions') =
        m.exported.filterMap (forwarded? definitions) := by
    intro m hm
    refine List.filterMap_congr fun t ht => ?_
    have hmem : t ∈ l.assembly.exported := List.mem_flatMap.2 ⟨m, hm, ht⟩
    unfold forwarded?
    cases hid : t.target? with
    | none => rfl
    | some id => rw [Option.bind_some, Option.bind_some, h t hmem id hid]
  unfold registered
  generalize 0 = position
  generalize l.assembly.modules = ms at hforwarded
  induction ms generalizing position with
  | nil => rfl
  | cons m ms ih =>
    rw [registeredFrom, registeredFrom, hforwarded m List.mem_cons_self,
      ih (position + m.types.length) fun m' hm' => hforwarded m' (List.mem_cons_of_mem m hm')]

end Selection

/-- What is loaded once more is what was loaded, in the next context. -/
theorem Build.load_next {b b' : Build} {read : Reader} (hassembly : b'.assembly = b.assembly)
    (hreferences : b'.references = b.references) (hread : b.Reads read fun a => a.detached = a) :
    b'.load read 1 = ((b.load read 0).1.map Renaming.next.loaded,
      Renaming.next.image (b.load read 0).2) := by
  have hcopies : Renaming.next.Reads (b.assembly :: b.references) read read := by
    intro p hp
    cases hr : read p with
    | error e => rfl
    | ok a =>
      have hsame := Renaming.assembly_of_detached (F := .next) (fun _ => rfl) (hread p hp a hr)
      exact congrArg Except.ok hsame.symm
  exact load_renamed hassembly hreferences hcopies 0

/-- A loaded build and the same build in the next context have no differences. -/
theorem compareLoaded_next {s : Selection} {l : Loaded} {u : Universe} (hcontext : u.context = 0)
    (htarget : ∀ t ∈ l.bound.assembly.exported, ∀ id, t.target? = some id →
      id.assembly.context = 0)
    (hplain : ∀ s : Selection, ∀ d ∈ s.registered u.definition? l.bound, d.type.Plain)
    (hapart : s.comparer.TellsApart (s.registered u.definition? l.bound ++
      (s.along .next).registered u.definition? l.bound)) :
    (compareLoaded s (l, u) (Renaming.next.loaded l, Renaming.next.image u)).differences = [] := by
  let definitions := definitionsOf u (Renaming.next.image u)
  -- each side finds what its exported types lead to in its own universe
  have hown : ∀ t ∈ l.bound.assembly.exported, ∀ id, t.target? = some id →
      definitions id = u.definition? id := by
    intro t ht id hid
    exact if_pos ((htarget t ht id hid).trans hcontext.symm)
  have hnext : ∀ t ∈ l.bound.assembly.exported,
      Selection.Leads .next u.definition? definitions t := by
    intro t ht id hid
    have hne : (Renaming.next.definitionId id).assembly.context ≠ u.context := by
      show id.assembly.context + 1 ≠ u.context
      rw [htarget t ht id hid, hcontext]
      omega
    exact (if_neg hne).trans (Renaming.definition?_image u id)
  have hl : s.registered definitions l.bound =
      (s.registered u.definition? l.bound).map Renaming.identity.definition := by
    rw [Selection.registered_congr hown, funext Renaming.definition_identity, List.map_id']
  have hr : s.registered definitions (Renaming.next.loaded l).bound =
      ((s.along .next).registered u.definition? l.bound).map Renaming.next.definition := by
    rw [Renaming.bound_loaded]
    exact Selection.registered_renamed hnext
  exact SurfaceTree.differences_of_copies
    (F := fun side => if side = .left then .identity else .next)
    (fun side => s.comparer.overlooks_of_name (by cases side <;> exact fun _ => rfl)) hapart
    (fun d hd => ((List.mem_append.1 hd).elim (hplain s d) (hplain _ d)).faithful) hl hr Rule.all

namespace Job

variable {read : Reader} {s : Selection} {j : Job}

/-- A build that is compared with itself has no differences, whatever its references and exported
types lead to. On the right side the selection is asked about copies. -/
theorem differences_unchanged (hassembly : j.right.assembly = j.left.assembly)
    (hreferences : j.right.references = j.left.references)
    (hread : j.left.Reads read fun a => a.detached = a)
    (hapart : s.comparer.TellsApart
      (j.left.brought read s ++ j.left.brought read (s.along .next))) :
    (j.outcome read s).map (·.differences) = (read j.left.assembly).map fun _ => [] := by
  have hright := Build.load_next hassembly hreferences hread
  cases ha : read j.left.assembly with
  | error e =>
    have hleft : j.left.load read 0 = (.error e, _) := Universe.loadPrimary_run_error ha _
    rw [outcome, run, hleft]
    rfl
  | ok a =>
    obtain ⟨l, u, hleft, hcontext, htarget, hplain⟩ := Build.load_plain hread ha
    have hbrought (s : Selection) : j.left.brought read s = s.registered u.definition? l.bound := by
      rw [Build.brought, hleft]
    rw [hbrought, hbrought] at hapart
    rw [hleft] at hright
    rw [outcome, run, hleft, hright]
    exact congrArg Except.ok (compareLoaded_next hcontext htarget hplain hapart)

/-- A library with a type that has moved away and a reference that leads nowhere. -/
def library : Reader :=
  (Catalog.of [
    ("Lib", [.box [.topLevel (.simple "Dep") "" "Moved", .topLevel (.simple "Lost") "" "Base"]],
      [AssemblyDeclaration.forwarder "" "Moved" (.simple "Dep")]),
    ("Dep", [(TypeDeclaration.publicClass "" "Moved").member (.constructor .publicScope)],
      [])]).reader

def again : Job :=
  ⟨⟨"v1", ⟨"Lib"⟩, [⟨"Dep"⟩]⟩, ⟨"v2", ⟨"Lib"⟩, [⟨"Dep"⟩]⟩⟩

theorem differences_unchanged_again :
    (again.left.brought library .visible).map Definition.path = [[("", "Box")], [("", "Moved")]] ∧
      (again.outcome library .visible).map (·.differences) = .ok [] := by
  have hpaths : (again.left.brought library .visible).map Definition.path =
      [[("", "Box")], [("", "Moved")]] := by cbv
  have hnames : (again.left.brought library .visible).map (fun d => d.type.members.map (·.name)) =
      [[], [".ctor"]] := by cbv
  have hapart : Selection.visible.comparer.TellsApart (again.left.brought library .visible) := by
    apply Comparer.tellsApart_of_nodup
    · rw [hpaths]
      decide
    · rw [hnames]
      decide
  have hcopies : Selection.visible.comparer.TellsApart (again.left.brought library .visible ++
      again.left.brought library (Selection.visible.along .next)) := by
    rw [Selection.visible_along]
    exact hapart.of_subset (by simp)
  have hunbound : again.left.Reads library fun a => a.detached = a := by
    intro p _ a ha
    obtain ⟨e, he, rfl⟩ := Catalog.mem_of_reader ha
    obtain ⟨b, hb, rfl⟩ := List.mem_map.1 he
    fin_cases hb <;> rfl
  exact ⟨hpaths, differences_unchanged rfl rfl hunbound hcopies⟩

end Job

end ApiEvolution
