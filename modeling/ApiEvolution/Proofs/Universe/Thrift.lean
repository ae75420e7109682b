import Mathlib
import ApiEvolution.Proofs.Universe.Agreement
import ApiEvolution.Proofs.Universe.History

/-!
# Each name is looked up once

A path is read on demand, and a warning about an assembly is given, only when a name is remembered
that was not remembered before. So whatever a universe is asked, all demanded reads go to files of
different names, and no two warnings are about one name. `Proceeds` says this of one step,
`Thrifty` of everything since a universe was opened.
-/

namespace ApiEvolution

/-- The name of the file without its extension, in small letters. -/
def Path.key? (p : Path) : Option String :=
  p.stem?.map Text.lower

/-- The simple name of the assembly that a warning is about, in small letters. -/
def Diagnostic.assemblyKey? (d : Diagnostic) : Option String :=
  match d.finding with
  | .assemblyNotFound name | .assemblyUnreadable name _ _ => some (Universe.key name)
  | _ => none

namespace Universe

variable {u v x : Universe} {keys keys' : List String}

/-! ## Names that become known -/

/-- The names are different, were not remembered before, and are remembered now. -/
structure Learns (u v : Universe) (keys : List String) : Prop where
  nodup : keys.Nodup
  fresh : ∀ k ∈ keys, u.remembered? k = none
  known : ∀ k ∈ keys, (v.remembered? k).isSome

namespace Learns

theorem nil (u v : Universe) : u.Learns v [] :=
  ⟨List.nodup_nil, nofun, nofun⟩

theorem append (h : u.Learns v keys) (h' : v.Learns x keys') (huv : u.Recalls v)
    (hvx : v.Recalls x) : u.Learns x (keys ++ keys') := by
  refine ⟨List.nodup_append.2 ⟨h.nodup, h'.nodup, ?_⟩, fun k hk => ?_, fun k hk => ?_⟩
  · rintro k hk _ hk' rfl
    have hknown := h.known k hk
    rw [h'.fresh k hk'] at hknown
    cases hknown
  · rcases List.mem_append.1 hk with hk | hk
    · exact h.fresh k hk
    · rw [← Option.not_isSome_iff_eq_none]
      intro hknown
      have hlater := huv.remembers k hknown
      rw [h'.fresh k hk] at hlater
      cases hlater
  · rcases List.mem_append.1 hk with hk | hk
    · exact hvx.remembers k (h.known k hk)
    · exact h'.known k hk

theorem of_recalls (h : u.Learns v keys) (hvx : v.Recalls x) : u.Learns x keys :=
  ⟨h.nodup, h.fresh, fun k hk => hvx.remembers k (h.known k hk)⟩

end Learns

/-! ## Steps -/

/-- Everything that was read, and every warning about an assembly, belongs to a name that has become
known, each to one of its own; what was read are reference paths of these names. -/
structure Proceeds (u v : Universe) : Prop where
  recalls : u.Recalls v
  reads : ∃ paths keys, v.reads = u.reads ++ paths ∧ paths ⊆ u.referencePaths ∧
    paths.map Path.key? = keys.map some ∧ u.Learns v keys
  warnings : ∃ ds, v.diagnostics = u.diagnostics ++ ds ∧
    u.Learns v (ds.filterMap Diagnostic.assemblyKey?)

namespace Proceeds

theorem refl (u : Universe) : u.Proceeds u :=
  ⟨.refl u, ⟨[], [], by simp, List.nil_subset _, rfl, .nil u u⟩, [], by simp, .nil u u⟩

theorem trans (h : u.Proceeds v) (h' : v.Proceeds x) : u.Proceeds x := by
  obtain ⟨huv, ⟨paths, keys, hreads, hsub, hkeys, hlearns⟩, ds, hds, hwarns⟩ := h
  obtain ⟨hvx, ⟨paths', keys', hreads', hsub', hkeys', hlearns'⟩, ds', hds', hwarns'⟩ := h'
  rw [huv.paths] at hsub'
  refine ⟨huv.trans hvx, ⟨paths ++ paths', keys ++ keys', ?_, ?_, ?_, ?_⟩, ds ++ ds', ?_, ?_⟩
  · rw [hreads', hreads, List.append_assoc]
  · exact List.append_subset.2 ⟨hsub, hsub'⟩
  · rw [List.map_append, List.map_append, hkeys, hkeys']
  · exact hlearns.append hlearns' huv hvx
  · rw [hds', hds, List.append_assoc]
  · rw [List.filterMap_append]
    exact hwarns.append hwarns' huv hvx

end Proceeds

/-- A name becomes known; what has been read meanwhile, and what has been warned of, is of it. -/
theorem proceeds_remember {k : String} (hk : u.remembered? k = none) (entry : Option AssemblyId)
    {paths : List Path} {ds : List Diagnostic} (hpaths : v.referencePaths = u.referencePaths)
    (hnames : v.names = u.names) (hreads : v.reads = u.reads ++ paths)
    (hds : v.diagnostics = u.diagnostics ++ ds) (hsub : paths ⊆ u.referencePaths)
    (hkeys : paths.map Path.key? = keys.map some) (hread : keys.Sublist [k])
    (hwarned : (ds.filterMap Diagnostic.assemblyKey?).Sublist [k]) :
    u.Proceeds (v.remember k entry) := by
  have hlearns {keys : List String} (hsub : keys.Sublist [k]) :
      u.Learns (v.remember k entry) keys := by
    have hmem : ∀ k' ∈ keys, k' = k := fun k' hk' => List.mem_singleton.1 (hsub.subset hk')
    refine ⟨hsub.nodup (List.nodup_singleton k), fun k' hk' => ?_, fun k' hk' => ?_⟩
    · rw [hmem k' hk']
      exact hk
    · rw [hmem k' hk', remembered?_remember, if_pos rfl]
      rfl
  have hrecalls : u.Recalls (v.remember k entry) :=
    (recalls_remember u k entry).of_names hpaths (by rw [remember, remember, hnames])
  exact ⟨hrecalls, ⟨paths, keys, hreads, hsub, hkeys, hlearns hread⟩, ds, hds, hlearns hwarned⟩

theorem proceeds_report (u : Universe) {d : Diagnostic} (hd : d.assemblyKey? = none) :
    u.Proceeds (u.report d) := by
  refine ⟨⟨rfl, fun _ hk => hk⟩, ⟨[], [], by simp [report], List.nil_subset _, rfl, .nil _ _⟩, [d],
    rfl, ?_⟩
  rw [List.filterMap_cons_none hd]
  exact .nil _ _

theorem proceeds_update (u : Universe) (id : AssemblyId) (f : Assembly → Assembly) :
    u.Proceeds (u.update id f) :=
  ⟨⟨rfl, fun _ hk => hk⟩, ⟨[], [], by simp [update], List.nil_subset _, rfl, .nil _ _⟩, [],
    by simp [update], .nil _ _⟩

theorem lasting_proceeds (u : Universe) : Lasting u.Proceeds :=
  ⟨fun v _ _ hv => hv.trans (proceeds_report v rfl),
    fun v id f hv => hv.trans (proceeds_update v id f)⟩

/-- A step that proceeds from every state proceeds. -/
theorem agree_of_proceeds {α : Type} {x : UniverseM α} (h : ∀ v : Universe, v.Proceeds (x.run v).2)
    (u : Universe) : Agree u.Proceeds x x :=
  fun v hv => ⟨hv.trans (h v), rfl⟩

section Demands

variable {read : Reader} {resolve : AssemblyResolver}
  (hresolve : ∀ name (v : Universe), v.Proceeds ((resolve name).run v).2)
include hresolve

theorem proceeds_bindAssembly (l : Loaded) (u : Universe) :
    u.Proceeds ((bindAssembly resolve l).run u).2 :=
  (agree_bindAssembly (lasting_proceeds u) (fun a => agree_of_proceeds (hresolve a) u) l u
    (.refl u)).1

theorem proceeds_resolveTypeBy (t : TypeRef) (u : Universe) :
    u.Proceeds ((resolveTypeBy resolve t).run u).2 :=
  (agree_resolveTypeBy (fun a => agree_of_proceeds (hresolve a) u) t u (.refl u)).1

/-- A demand remembers the name, if it is new, whether it has read a path, warned, or both. -/
theorem proceeds_demand (name : AssemblyName) (u : Universe) :
    u.Proceeds ((demand read resolve name).run u).2 := by
  unfold demand
  simp only [StateT.run_bind, StateT.run_get, pure_bind]
  cases he : u.remembered? (key name) with
  | some entry => exact .refl u
  | none =>
    have hone : [key name].Sublist [key name] := List.Sublist.refl _
    cases hp : u.referencePath? name with
    | none =>
      exact proceeds_remember (v := u.report ⟨.assemblyNotFound name, none⟩) he none rfl rfl
        (List.append_nil _).symm rfl (List.nil_subset _) (List.map_nil) (List.nil_sublist _) hone
    | some path =>
      obtain ⟨hmem, s, hs, hkey⟩ := stem_of_referencePath? hp
      have hpath : [path].map Path.key? = [key name].map some := by
        rw [List.map_singleton, Path.key?, hs, Option.map_some, hkey, List.map_singleton]
      have hsub : [path] ⊆ u.referencePaths := List.cons_subset.2 ⟨hmem, List.nil_subset _⟩
      dsimp only
      cases read path with
      | error e =>
        let warned : Universe := (u.noteRead path).report ⟨.assemblyUnreadable name path e, none⟩
        exact proceeds_remember (v := warned) he none rfl rfl rfl rfl hsub hpath hone hone
      | ok a =>
        let id : AssemblyId := ⟨u.context, u.next⟩
        let taken : Universe :=
          { u.noteRead path with assemblies := u.assemblies ++ [⟨id, a⟩], next := u.next + 1 }
        have htaken : u.Proceeds (taken.remember (key name) (some id)) :=
          proceeds_remember he _ rfl rfl rfl (List.append_nil _).symm hsub hpath hone
            (List.nil_sublist _)
        exact htaken.trans (proceeds_bindAssembly hresolve ⟨id, a⟩ _)

end Demands

theorem proceeds_resolveAssembly (read : Reader) (name : AssemblyName) (u : Universe) :
    u.Proceeds ((resolveAssembly read name).run u).2 := by
  have hiterate (depth : Nat) : ∀ name (v : Universe),
      v.Proceeds (((demand read)^[depth] (fun _ => pure none) name).run v).2 := by
    induction depth with
    | zero => exact fun _ v => .refl v
    | succ depth ih =>
      rw [Function.iterate_succ_apply']
      exact proceeds_demand ih
  have hagree := agree_resolveAssembly read (fun _ => pure none) (u.unreadCount + 1) name
  have hrun := run_of_agree hagree (Nat.lt_succ_self _)
  rw [hrun]
  exact hiterate _ name u

end Universe

/-! ## Everything that is asked -/

/-- The path of an assembly that is to be loaded. -/
def Call.primaryPath? : Call → Option Path
  | loadPrimary path => some path
  | _ => none

namespace Universe

variable {opened u : Universe} {primaries : List Path}

/-- A call reads what it is to load, and then goes on by demand. -/
theorem proceeds_call (read : Reader) (c : Call) (u : Universe) : ∃ started : Universe,
    u.Recalls started ∧ started.reads = u.reads ++ c.primaryPath?.toList ∧
      started.diagnostics = u.diagnostics ∧ started.Proceeds (c.run read u) := by
  cases c with
  | loadPrimary path =>
    show ∃ started : Universe, _ ∧ _ ∧ _ ∧ started.Proceeds ((loadPrimary read path).run u).2
    cases hr : read path with
    | error e =>
      rw [loadPrimary_run_error hr]
      exact ⟨u.noteRead path, (Recalls.refl u).of_names rfl rfl, rfl, rfl, .refl _⟩
    | ok a =>
      rw [loadPrimary_run_ok hr]
      refine ⟨_, ?_, ?_, ?_, proceeds_bindAssembly (proceeds_resolveAssembly read) _ _⟩
      · exact (recalls_remember u (key a.name) (some ⟨u.context, u.next⟩)).of_names rfl rfl
      · rfl
      · rfl
  | resolveAssembly name =>
    exact ⟨u, .refl u, (List.append_nil _).symm, rfl, proceeds_resolveAssembly read name u⟩
  | resolveType t =>
    exact ⟨u, .refl u, (List.append_nil _).symm, rfl,
      proceeds_resolveTypeBy (proceeds_resolveAssembly read) t u⟩

/-- Since the universe was opened, it has read the given paths and what was demanded: reference
paths of different names. Of each name it has warned once at most. -/
structure Thrifty (opened : Universe) (primaries : List Path) (u : Universe) : Prop where
  recalls : opened.Recalls u
  reads : ∃ demanded keys, u.reads.Perm (primaries ++ demanded) ∧
    demanded ⊆ opened.referencePaths ∧ demanded.map Path.key? = keys.map some ∧
    opened.Learns u keys
  warnings : opened.Learns u (u.diagnostics.filterMap Diagnostic.assemblyKey?)

theorem Thrifty.call (h : Thrifty opened primaries u) (read : Reader) (c : Call) :
    Thrifty opened (primaries ++ c.primaryPath?.toList) (c.run read u) := by
  obtain ⟨hou, ⟨demanded, keys, hreads, hsub, hkeys, hlearns⟩, hwarns⟩ := h
  obtain ⟨started, hus, hstarted, hsame, hproceeds⟩ := proceeds_call read c u
  obtain ⟨hsv, ⟨paths, keys', hreads', hsub', hkeys', hlearns'⟩, ds, hds, hwarns'⟩ := hproceeds
  have hos := hou.trans hus
  refine ⟨hos.trans hsv, ⟨demanded ++ paths, keys ++ keys', ?_, ?_, ?_, ?_⟩, ?_⟩
  · rw [hreads', hstarted]
    refine List.perm_iff_count.2 fun p => ?_
    have hcount := hreads.count_eq p
    simp only [List.count_append] at hcount ⊢
    omega
  · rw [hos.paths] at hsub'
    exact List.append_subset.2 ⟨hsub, hsub'⟩
  · rw [List.map_append, List.map_append, hkeys, hkeys']
  · exact (hlearns.of_recalls hus).append hlearns' hos hsv
  · rw [hds, hsame, List.filterMap_append]
    exact (hwarns.of_recalls hus).append hwarns' hos hsv

/-- A universe that was just opened has read nothing. -/
theorem thrifty_opened (context : Nat) (paths : List Path) :
    Thrifty { context, referencePaths := paths } [] { context, referencePaths := paths } :=
  ⟨.refl _, ⟨[], [], .nil, List.nil_subset _, rfl, .nil _ _⟩, .nil _ _⟩

/-- What becomes of a universe that is asked one thing after another; what can be read may change
meanwhile. -/
def afterAll (u : Universe) (asked : List (Reader × Call)) : Universe :=
  asked.foldl (fun u c => c.2.run c.1 u) u

theorem Thrifty.afterAll (h : Thrifty opened primaries u) (asked : List (Reader × Call)) :
    Thrifty opened (primaries ++ asked.filterMap (·.2.primaryPath?)) (u.afterAll asked) := by
  induction asked generalizing primaries u with
  | nil => simpa [Universe.afterAll] using h
  | cons c asked ih =>
    have hrest := ih (h.call c.1 c.2)
    have hpaths : (c :: asked).filterMap (·.2.primaryPath?) =
        c.2.primaryPath?.toList ++ asked.filterMap (·.2.primaryPath?) := by
      rw [List.filterMap_cons]
      cases c.2.primaryPath? <;> rfl
    rw [hpaths, ← List.append_assoc]
    exact hrest

/-- Every call comes to an end: unrolled more often than there are reference paths, a demand gives
the same result whatever stands at the end, and finding assemblies solves the recursion without a
bound. And whatever a universe is asked from the moment it is opened, what it reads are the paths it
was to load and, for each simple name at most once, a reference path of that name; and of each name
it warns at most once. -/
theorem calls_end_and_read_once :
    (∀ (read : Reader) (bottom : AssemblyResolver) (u : Universe) (depth : Nat),
      u.referencePaths.length < depth →
      (∀ name, ((demand read)^[depth] bottom name).run u = (resolveAssembly read name).run u) ∧
      (∀ t, (resolveTypeBy ((demand read)^[depth] bottom) t).run u = (resolveType read t).run u) ∧
      ∀ path, (loadPrimaryBy read ((demand read)^[depth] bottom) path).run u =
        (loadPrimary read path).run u) ∧
    (∀ read, resolveAssembly read = demand read (resolveAssembly read)) ∧
    ∀ (context : Nat) (paths : List Path) (asked : List (Reader × Call)),
      let u := afterAll { context, referencePaths := paths } asked
      let primaries := asked.filterMap (·.2.primaryPath?)
      (∃ demanded, u.reads.Perm (primaries ++ demanded) ∧ demanded ⊆ paths ∧
        (∀ p ∈ demanded, p.key?.isSome) ∧ (demanded.map Path.key?).Nodup) ∧
      (u.diagnostics.filterMap Diagnostic.assemblyKey?).Nodup ∧
      u.reads.length ≤ primaries.length + (paths.filterMap Path.key?).eraseDups.length := by
  refine ⟨fun read bottom u depth hdepth => ?_, resolveAssembly_eq_demand,
    fun context paths asked => ?_⟩
  · have hu : u.unreadCount < depth := Nat.lt_of_le_of_lt List.countP_le_length hdepth
    exact ⟨fun name => (run_of_agree (agree_resolveAssembly read bottom depth name) hu).symm,
      fun t => (run_of_agree (agree_resolveType read bottom depth t) hu).symm,
      fun path => (run_of_agree (agree_loadPrimary read bottom depth path) hu).symm⟩
  · intro u primaries
    have hthrifty := (thrifty_opened context paths).afterAll asked
    obtain ⟨-, ⟨demanded, keys, hreads, hsub, hkeys, hlearns⟩, hwarns⟩ := hthrifty
    rw [List.nil_append] at hreads
    have hnodup : (demanded.map Path.key?).Nodup := by
      rw [hkeys]
      exact hlearns.nodup.map (Option.some_injective _)
    have hsome : ∀ p ∈ demanded, p.key?.isSome := by
      intro p hp
      obtain ⟨k, -, hk⟩ := List.mem_map.1 (hkeys ▸ List.mem_map_of_mem hp)
      rw [← hk]
      rfl
    have hstems : keys ⊆ (paths.filterMap Path.key?).eraseDups := by
      intro k hk
      obtain ⟨p, hp, hpk⟩ := List.mem_map.1 (hkeys ▸ List.mem_map_of_mem hk)
      exact List.mem_eraseDups.2 (List.mem_filterMap.2 ⟨p, hsub hp, hpk⟩)
    have hlength : demanded.length = keys.length := by
      simpa only [List.length_map] using congrArg List.length hkeys
    have hcount := (hlearns.nodup.subperm hstems).length_le
    refine ⟨⟨demanded, hreads, hsub, hsome, hnodup⟩, hwarns.nodup, ?_⟩
    rw [hreads.length_eq, List.length_append, hlength]
    exact Nat.add_le_add_left hcount _

/-- Two assemblies that refer to each other. -/
def circle : Reader :=
  (Catalog.of [("A", [.box [.topLevel (.simple "B") "" "Box"]], []),
    ("B", [.box [.topLevel (.simple "A") "" "Box"]], [])]).reader

/-- The assemblies of the circle can be demanded. -/
def openedCircle : Universe :=
  { context := 0, referencePaths := [⟨"A"⟩, ⟨"B"⟩] }

theorem calls_end_and_read_once_circle :
    ((demand circle)^[3] (fun _ => pure none) (.simple "A")).run openedCircle =
      (resolveAssembly circle (.simple "A")).run openedCircle :=
  (calls_end_and_read_once.1 circle (fun _ => pure none) openedCircle 3 (by decide)).1 (.simple "A")

end Universe

end ApiEvolution
