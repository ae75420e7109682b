import ApiEvolution.Proofs.Pairing.Localized
import ApiEvolution.Proofs.Surface.Occurrences
import ApiEvolution.Proofs.Universe.Bookkeeping
import ApiEvolution.Proofs.Universe.Chronicle

/-!
# What a universe binds is its own

A universe is `Owning` if everything it keeps is what it has read, and every reference in it that is
bound is bound to a definition that it has read. Nothing but the references themselves is bound: not
their declaring types, no descriptor, and no declaring type of a member. A universe goes `Onward` if
its assemblies do, apart from those that it has read since.

Both are kept up by whatever a universe does: by resolving and loading (`Universe.ledger`), by
giving up definitions and by binding an assembly to itself.
-/

namespace ApiEvolution

open Universe Passage

/-! ## What belongs to a chronicle -/

/-- The reference is bound to nothing but a definition that was read, and its declaring types are
bound to nothing. -/
structure TypeRef.Own (c : Chronicle) (t : TypeRef) : Prop where
  flat : t.Flat
  describes : ∀ id d, t.binding = .resolved id d → c.Describes id d

theorem TypeRef.Own.mono {c c' : Chronicle} (h : c.Extends c') {t : TypeRef} (ht : t.Own c) :
    t.Own c' :=
  ⟨ht.flat, fun id d hd => (ht.describes id d hd).mono h⟩

namespace Chronicle

/-- The assembly was read, its labels are bound to nothing and its references to what was read. -/
structure Owns (c : Chronicle) (l : Loaded) : Prop where
  assembly : c.assembly? l.id = some l.assembly.detached
  labels : ∀ r ∈ l.assembly.labels, r.detached = r
  references : ∀ r ∈ l.assembly.references, r.Own c

/-- The definition was read, and its labels are bound to nothing. -/
structure Offers (c : Chronicle) (d : Definition) : Prop where
  lists : c.Lists d
  labels : ∀ r ∈ d.type.labels, r.detached = r

variable {c c' : Chronicle} {l : Loaded} {d e : Definition} {id : AssemblyId} {a b : Assembly}

theorem Owns.mono (h : c.Extends c') (hl : c.Owns l) : c'.Owns l :=
  ⟨h.assembly? hl.assembly, hl.labels, fun r hr => (hl.references r hr).mono h⟩

theorem Offers.describes (hd : c.Offers d) : c.Describes d.id d.type.descriptor := by
  refine ⟨d.type.detached, hd.lists, ?_⟩
  rw [TypeDefinition.descriptor_detached]
  exact hd.labels _ d.type.descriptor_mem_labels

theorem Owns.offers (hl : c.Owns l) {p : List Nat} {t : TypeDefinition}
    (ht : l.assembly.definitionAt? p = some t) : c.Offers ⟨⟨l.id, p⟩, t⟩ :=
  ⟨lists_of_definitionAt? hl.assembly ht, fun r hr =>
    hl.labels r (Assembly.labels_of_definitionAt? ht hr)⟩

theorem Offers.nested? (hd : c.Offers d) {space name : String}
    (he : d.nested? space name = some e) : c.Offers e := by
  refine ⟨hd.lists.nested? he, fun r hr => ?_⟩
  obtain ⟨f, hf, rfl⟩ := Option.map_eq_some_iff.1 he
  obtain ⟨⟨i, t⟩, ht, rfl⟩ := Option.map_eq_some_iff.1 hf
  exact hd.labels r (TypeDefinition.labels_of_nestedTypes (TypeDefinition.named_of_first? ht).1 hr)

/-- Wherever something is bound in the assembly, it is bound to a definition that was read. -/
theorem Owns.describes_of_mem_occurrences (hl : c.Owns l) {r : TypeRef}
    (hr : r ∈ l.assembly.occurrences) {id : DefinitionId} {d : TypeRef}
    (hd : r.binding = .resolved id d) : c.Describes id d := by
  obtain ⟨t, ht, hr⟩ := List.mem_flatMap.1 hr
  have hown : t.Flat ∧ (t = r → c.Describes id d) := by
    rcases List.mem_append.1 ht with ht | ht
    · have hdetached := hl.labels t ht
      refine ⟨hdetached ▸ t.flat_detached, ?_⟩
      rintro rfl
      exact absurd hd (TypeRef.ne_resolved_of_detached hdetached id d)
    · refine ⟨(hl.references t ht).flat, ?_⟩
      rintro rfl
      exact (hl.references t ht).describes id d hd
  -- only the reference itself can be bound, none of its declaring types
  rcases hown.1.eq_or_detached hr with rfl | hdetached
  · exact hown.2 rfl
  · exact absurd hd (TypeRef.ne_resolved_of_detached hdetached id d)

/-- An assembly that was read without bindings belongs to the chronicle as it is. -/
theorem owns_of_detached (ha : a.detached = a) (hid : c.assembly? id = some a) :
    c.Owns ⟨id, a⟩ := by
  refine ⟨hid.trans (congrArg some ha.symm), fun r => Assembly.detached_of_mem_labels ha,
    fun r hr => ?_⟩
  have hdetached := Assembly.detached_of_mem_references ha hr
  exact ⟨hdetached ▸ r.flat_detached, fun id d hd =>
    absurd hd (TypeRef.ne_resolved_of_detached hdetached id d)⟩

theorem Owns.release (hl : c.Owns l) (kept : DefinitionId → Bool) :
    c.Owns { l with assembly := l.assembly.release kept } := by
  refine ⟨hl.assembly.trans (congrArg some (l.assembly.detached_release kept).symm), fun r hr => ?_,
    fun r hr => ?_⟩
  · rw [Assembly.release, Assembly.labels_map] at hr
    obtain ⟨q, hq, rfl⟩ := List.mem_map.1 hr
    rw [TypeRef.detached_release, ← hl.labels q hq, TypeRef.release_detached]
    exact TypeRef.detached_detached q
  · rw [Assembly.release, Assembly.references_map] at hr
    obtain ⟨q, hq, rfl⟩ := List.mem_map.1 hr
    have hown := hl.references q hq
    refine ⟨hown.flat.release kept, fun id d hd => hown.describes id d ?_⟩
    obtain ⟨space, name, scope, binding⟩ := q
    exact Binding.eq_of_release hd

theorem Owns.setExported (hl : c.Owns ⟨id, b⟩) {module position : Nat} {m : Module} {t t' : TypeRef}
    (hm : b.detached.modules[module]? = some m) (ht : m.exported[position]? = some t)
    (hplace : t'.detached = t) (hown : t'.Own c) :
    c.Owns ⟨id, b.setExported module position t'⟩ := by
  refine ⟨hl.assembly.trans (congrArg some ?_), fun r hr => hl.labels r ?_, fun r hr => ?_⟩
  · exact (Assembly.detached_setExported hm (hplace ▸ ht)).symm
  · rwa [Assembly.labels, Assembly.topLevel_setExported] at hr
  · rcases Assembly.mem_references_setExported hr with hr | rfl
    · exact hl.references r hr
    · exact hown

/-- An assembly belongs to the chronicle when its references are bound to what was read. -/
theorem owns_of_replaced (ha : a.detached = a) (hid : c.assembly? id = some a)
    (h : Replaced (fun t t' => t'.detached = t ∧ t'.Own c) a b) : c.Owns ⟨id, b⟩ := by
  refine ⟨hid.trans (congrArg some (h.detached_eq ha fun _ _ hr => hr.1).symm), fun r hr => ?_,
    fun r hr => ?_⟩
  · have hlabels : b.labels = a.labels := Assembly.labels_of_replaced h
    exact Assembly.detached_of_mem_labels ha (hlabels ▸ hr)
  · obtain ⟨_, -, -, hown⟩ := h.exists_of_mem (Assembly.mem_refs.2 hr)
    exact hown

end Chronicle

mutual

/-- What is located in an assembly stands there. -/
theorem Assembly.definitionAt?_of_locate (a : Assembly) : (t : TypeRef) → (f : Found) →
    a.locate t = some f → a.definitionAt? f.position = some f.type
  | .mk space name scope _, f, h => a.definitionAt?_of_locateIn space name scope f h

theorem Assembly.definitionAt?_of_locateIn (a : Assembly) (space name : String) : (s : Scope) →
    (f : Found) → a.locateIn space name s = some f → a.definitionAt? f.position = some f.type
  | .assembly asked, f, h => by
    rw [locateIn] at h
    split at h
    · exact definitionAt?_of_find? h
    · cases h
  | .nested declaring, f, h => by
    rw [locateIn] at h
    split at h
    · next e he =>
      exact definitionAt?_of_nested? (a.definitionAt?_of_locate declaring e he) h
    · cases h

end

/-- Binding an assembly to itself binds it to what was read. -/
theorem Chronicle.Owns.bound {c : Chronicle} {l : Loaded} (hl : c.Owns l) : c.Owns l.bound := by
  have hid : l.bound.id = l.id := by rw [l.bound_spec.1]
  refine ⟨?_, fun r hr => hl.labels r ?_, fun r hr => ?_⟩
  · rw [hid, l.detached_bound]
    exact hl.assembly
  · rwa [Assembly.labels_eq_of_topLevel l.topLevel_bound] at hr
  · rw [Assembly.references, l.typeRefs_bound, l.exported_bound] at hr
    rcases List.mem_append.1 hr with hr | hr
    · obtain ⟨t, ht, rfl⟩ := List.mem_map.1 hr
      have hown := hl.references t (List.mem_append_left _ ht)
      refine ⟨l.flat_localize hown.flat, fun id d hd => ?_⟩
      rcases l.resolved_of_localize hd with hd | ⟨f, hf, rfl, rfl⟩
      · exact hown.describes id d hd
      · exact (hl.offers (l.assembly.definitionAt?_of_locate t f hf)).describes
    · exact hl.references r (List.mem_append_right _ hr)

theorem Loaded.onward_localize (l : Loaded) (t : TypeRef) : t.Onward (l.localize t) := by
  refine ⟨l.detached_localize t, ?_⟩
  cases hb : t.isBound with
  | true =>
    rw [l.localize_of_isBound hb]
    exact .refl t.binding
  | false =>
    obtain ⟨space, name, scope, binding⟩ := t
    cases binding with
    | unbound => trivial
    | _ => cases hb

/-- Binding an assembly to itself leaves what is bound. -/
theorem Loaded.onward_bound (l : Loaded) : l.assembly.Onward l.bound.assembly := by
  refine .of_references l.detached_bound (Assembly.labels_eq_of_topLevel l.topLevel_bound) ?_
  rw [Assembly.references, Assembly.references, l.typeRefs_bound, l.exported_bound]
  refine List.rel_append ?_ (List.forall₂_same.2 fun t _ => ⟨.refl t, rfl⟩)
  rw [List.forall₂_map_right_iff]
  exact List.forall₂_same.2 fun t _ => ⟨l.onward_localize t, l.scope_localize t⟩

/-! ## Universes -/

namespace Universe

/-- What the universe keeps is what it has read, each once, with references that are bound to
nothing else. -/
structure Owning (c : Chronicle) (u : Universe) : Prop where
  context : u.context = c.context
  next : u.next = c.entries.length
  pristine : ∀ a ∈ c.entries, a.detached = a
  owns : ∀ l ∈ u.assemblies, c.Owns l
  distinct : (u.assemblies.map (·.id)).Nodup

/-- What `v` keeps was kept by `u` already and has gone onward, or was read later. -/
structure Onward (u v : Universe) : Prop where
  next : u.next ≤ v.next
  assemblies : ∀ l' ∈ v.assemblies,
    (∃ l ∈ u.assemblies, l.id = l'.id ∧ l.assembly.Onward l'.assembly) ∨ u.next ≤ l'.id.number

variable {c : Chronicle} {start u v x : Universe} {id : AssemblyId} {f : Assembly → Assembly}

namespace Onward

theorem refl (u : Universe) : u.Onward u :=
  ⟨Nat.le_refl _, fun l hl => .inl ⟨l, hl, rfl, .refl _⟩⟩

theorem trans (h : u.Onward v) (h' : v.Onward x) : u.Onward x := by
  refine ⟨Nat.le_trans h.next h'.next, fun l'' hl'' => ?_⟩
  rcases h'.assemblies l'' hl'' with ⟨l', hl', hid', honward'⟩ | hlater
  · rcases h.assemblies l' hl' with ⟨l, hl, hid, honward⟩ | hlater
    · exact .inl ⟨l, hl, hid.trans hid', honward.trans honward'⟩
    · exact .inr (hid' ▸ hlater)
  · exact .inr (Nat.le_trans h.next hlater)

theorem of_eq (hnext : v.next = u.next) (hassemblies : v.assemblies = u.assemblies) :
    u.Onward v :=
  ⟨Nat.le_of_eq hnext.symm, fun l hl => .inl ⟨l, hassemblies ▸ hl, rfl, .refl _⟩⟩

/-- An assembly is replaced that was read since, or by what it becomes when it goes onward. -/
theorem update (h : start.Onward u)
    (hf : start.next ≤ id.number ∨
      ∀ l ∈ u.assemblies, l.id = id → l.assembly.Onward (f l.assembly)) :
    start.Onward (u.update id f) := by
  refine ⟨h.next, fun l' hl' => ?_⟩
  obtain ⟨l, hl, rfl⟩ := List.mem_map.1 hl'
  split
  · next hid =>
    have hid : l.id = id := by simpa using hid
    rcases hf with hlater | hf
    · exact .inr (hid ▸ hlater)
    · refine (h.assemblies l hl).imp_left fun ⟨k, hk, hkl, honward⟩ => ?_
      exact ⟨k, hk, hkl, honward.trans (hf l hl hid)⟩
  · exact h.assemblies l hl

/-- Assemblies are let go of, and definitions are given up. -/
theorem of_release {p : Loaded → Bool} {kept : DefinitionId → Bool} (hnext : v.next = u.next)
    (hassemblies : v.assemblies =
      (u.assemblies.filter p).map fun l => { l with assembly := l.assembly.release kept }) :
    u.Onward v := by
  refine ⟨Nat.le_of_eq hnext.symm, fun l' hl' => .inl ?_⟩
  rw [hassemblies] at hl'
  obtain ⟨l, hl, rfl⟩ := List.mem_map.1 hl'
  exact ⟨l, List.mem_of_mem_filter hl, rfl, .release kept l.assembly⟩

end Onward

namespace Owning

theorem of_eq (h : u.Owning c) (hcontext : v.context = u.context) (hnext : v.next = u.next)
    (hassemblies : v.assemblies = u.assemblies) : v.Owning c :=
  ⟨hcontext.trans h.context, hnext.trans h.next, h.pristine, hassemblies ▸ h.owns,
    hassemblies ▸ h.distinct⟩

theorem update (h : u.Owning c) (hf : ∀ a, c.Owns ⟨id, a⟩ → c.Owns ⟨id, f a⟩) :
    (u.update id f).Owning c := by
  refine ⟨h.context, h.next, h.pristine, fun l' hl' => ?_, ?_⟩
  · obtain ⟨⟨id', a⟩, hl, rfl⟩ := List.mem_map.1 hl'
    have howns := h.owns _ hl
    split
    · next hid =>
      obtain rfl : id' = id := by simpa using hid
      exact hf a howns
    · exact howns
  · have hids : (u.update id f).assemblies.map (·.id) = u.assemblies.map (·.id) := by
      rw [Universe.update, List.map_map]
      refine List.map_congr_left fun l _ => ?_
      rw [Function.comp_apply]
      split <;> rfl
    rw [hids]
    exact h.distinct

theorem of_release (h : u.Owning c) {p : Loaded → Bool} {kept : DefinitionId → Bool}
    (hcontext : v.context = u.context) (hnext : v.next = u.next) (hassemblies : v.assemblies =
      (u.assemblies.filter p).map fun l => { l with assembly := l.assembly.release kept }) :
    v.Owning c := by
  refine ⟨hcontext.trans h.context, hnext.trans h.next, h.pristine, fun l' hl' => ?_, ?_⟩
  · rw [hassemblies] at hl'
    obtain ⟨l, hl, rfl⟩ := List.mem_map.1 hl'
    exact (h.owns l (List.mem_of_mem_filter hl)).release kept
  · rw [hassemblies, List.map_map]
    exact (List.filter_sublist.map Loaded.id).nodup h.distinct

/-- The number of an assembly that is kept is one that was given. -/
theorem number_lt (h : u.Owning c) {l : Loaded} (hl : l ∈ u.assemblies) : l.id.number < u.next := by
  obtain ⟨-, hentry⟩ := Chronicle.assembly?_eq_some_iff.1 (h.owns l hl).assembly
  rw [h.next]
  exact (List.getElem?_eq_some_iff.1 hentry).1

theorem takeIn (h : u.Owning c) {a : Assembly} (ha : a.detached = a) (key : String) :
    (u.takeIn key a).2.Owning (c.add a) := by
  have hassembly : (c.add a).assembly? ⟨u.context, u.next⟩ = some a := by
    rw [h.context, h.next]
    exact c.assembly?_add a
  refine ⟨h.context, ?_, fun b hb => ?_, fun l hl => ?_, ?_⟩
  · have hlength : (c.add a).entries.length = c.entries.length + 1 := List.length_append
    exact (congrArg (· + 1) h.next).trans hlength.symm
  · rcases List.mem_append.1 hb with hb | hb
    · exact h.pristine b hb
    · rwa [List.mem_singleton.1 hb]
  · rcases List.mem_append.1 hl with hl | hl
    · exact (h.owns l hl).mono (c.extends_add a)
    · rw [List.mem_singleton.1 hl]
      exact Chronicle.owns_of_detached ha hassembly
  · have hids : (u.takeIn key a).2.assemblies.map (·.id) =
        u.assemblies.map (·.id) ++ [(⟨u.context, u.next⟩ : AssemblyId)] := List.map_append
    rw [hids]
    refine List.nodup_append.2
      ⟨h.distinct, List.pairwise_singleton _ _, fun id hid id' hid' he => ?_⟩
    obtain ⟨l, hl, rfl⟩ := List.mem_map.1 hid
    have hlt := h.number_lt hl
    rw [he, List.mem_singleton.1 hid'] at hlt
    exact Nat.lt_irrefl _ hlt

end Owning

/-! ## Reading and binding -/

/-- The universe has gone onward from `start`, which had read the assemblies `known`, and what it
keeps is what it has read. -/
structure Progress (read : Reader) (start : Universe) (known : List Assembly) (c : Chronicle)
    (u : Universe) : Prop where
  owning : u.Owning c
  onward : start.Onward u
  entries : ∃ paths, u.reads = start.reads ++ paths ∧
    c.entries = known ++ paths.filterMap fun p => (read p).toOption

namespace Progress

variable {read : Reader} {known : List Assembly}

theorem of_eq (h : Progress read start known c u) (hcontext : v.context = u.context)
    (hnext : v.next = u.next) (hassemblies : v.assemblies = u.assemblies)
    (hreads : v.reads = u.reads) : Progress read start known c v :=
  ⟨h.owning.of_eq hcontext hnext hassemblies, h.onward.trans (.of_eq hnext hassemblies),
    hreads ▸ h.entries⟩

theorem update (h : Progress read start known c u) (hid : start.next ≤ id.number)
    (hf : ∀ a, c.Owns ⟨id, a⟩ → c.Owns ⟨id, f a⟩) : Progress read start known c (u.update id f) :=
  ⟨h.owning.update hf, h.onward.update (.inl hid), h.entries⟩

theorem collect (h : Progress read start known c u) : Progress read start known c u.collect :=
  ⟨h.owning.of_release rfl rfl rfl, h.onward.trans (.of_release rfl rfl), h.entries⟩

theorem unreadable (h : Progress read start known c u) {path : Path} {e : LoadError}
    (hr : read path = .error e) : Progress read start known c (u.noteRead path) := by
  obtain ⟨paths, hreads, hentries⟩ := h.entries
  refine ⟨h.owning.of_eq rfl rfl rfl, h.onward.trans (.of_eq rfl rfl), paths ++ [path], ?_, ?_⟩
  · rw [noteRead, hreads, List.append_assoc]
  · rw [hentries, List.filterMap_append, List.filterMap_cons_none (by rw [hr]; rfl),
      List.filterMap_nil, List.append_nil]

theorem takeIn (h : Progress read start known c u) {path : Path} {a : Assembly}
    (hr : read path = .ok a) (ha : a.detached = a) (key : String) :
    Progress read start known (c.add a) ((u.noteRead path).takeIn key a).2 := by
  obtain ⟨paths, hreads, hentries⟩ := h.entries
  have hnoted : (u.noteRead path).Owning c := h.owning.of_eq rfl rfl rfl
  refine ⟨hnoted.takeIn ha key, ⟨Nat.le_succ_of_le h.onward.next, fun l hl => ?_⟩, paths ++ [path],
    ?_, ?_⟩
  · rcases List.mem_append.1 hl with hl | hl
    · exact h.onward.assemblies l hl
    · rw [List.mem_singleton.1 hl]
      exact .inr h.onward.next
  · exact (congrArg (· ++ [path]) hreads).trans (List.append_assoc _ _ _)
  · rw [Chronicle.add, hentries, List.filterMap_append, List.filterMap_cons_some (by rw [hr]; rfl),
      List.filterMap_nil, List.append_assoc]

end Progress

/-- References are bound to what was read. -/
def owning : Passage Chronicle where
  le := Chronicle.Extends
  rel c t t' := t'.detached = t ∧ t'.Own c
  refl := .refl
  trans := .trans
  mono h hr := ⟨hr.1, hr.2.mono h⟩

theorem owning_rel_self {a : Assembly} (ha : a.detached = a) {t : TypeRef}
    (ht : t ∈ a.references) : owning.rel c t t := by
  have hdetached := Assembly.detached_of_mem_references ha ht
  exact ⟨hdetached, hdetached ▸ t.flat_detached, fun id d hd =>
    absurd hd (TypeRef.ne_resolved_of_detached hdetached id d)⟩

theorem owning_rel_withBinding {t : TypeRef} (h : owning.rel c t t) (ht : t.isBound = false)
    {b : Binding} (hb : b.detached = .unbound)
    (hdescribes : ∀ id d, b = .resolved id d → c.Describes id d) :
    owning.rel c t (t.withBinding b) :=
  ⟨(TypeRef.detached_withBinding ht hb).trans h.1, h.2.flat.withBinding b, hdescribes⟩

/-- The chronicle lists what was read after `known`, and references lead to what it offers. -/
def ledger {read : Reader} (hread : ∀ p a, read p = .ok a → a.detached = a) (start : Universe)
    (known : List Assembly) : Bookkeeping Chronicle read where
  toPassage := owning
  right := Progress read start known
  taken c id a := c.assembly? id = some a ∧ a.detached = a ∧ start.next ≤ id.number
  kept c l := c.Owns l
  leads c _ d := c.Offers d
  taken_mono hle h := ⟨Chronicle.Extends.assembly? hle h.1, h.2⟩
  kept_mono hle h := h.mono hle
  kept_of_assembly? hu hl := hu.owning.owns _ (List.mem_of_find?_eq_some hl)
  leads_bound t hu hd := by
    obtain ⟨-, l, hl, hid, hat⟩ := exists_of_bound? hd
    have hoffers := (hu.owning.owns l hl).offers hat
    rwa [hid] at hoffers
  leads_own _ _ _ hl hf := hl.offers (Assembly.definitionAt?_of_find? hf)
  leads_exported _ _ _ _ _ _ _ hd := hd
  leads_nested _ _ hd he := hd.nested? he
  rel_self ha ht := owning_rel_self ha.2.1 ht
  rel_resolved _ ha ht hunbound hd := by
    refine owning_rel_withBinding (owning_rel_self ha.2.1 ht) hunbound rfl fun _ _ he => ?_
    cases he
    exact hd.describes
  rel_unresolved ha ht hunbound :=
    owning_rel_withBinding (owning_rel_self ha.2.1 ht) hunbound rfl nofun
  right_setExported hu ha hm ht hrel := by
    refine hu.update ha.2.2 fun b hb => hb.setExported ?_ ht hrel.1 hrel.2
    rwa [← Option.some.inj (hb.assembly.symm.trans ha.1)] at hm
  kept_of_replaced _ ha h := Chronicle.owns_of_replaced ha.2.1 ha.1 h
  right_update hu ha hkept := hu.update ha.2.2 fun _ _ => hkept
  right_report _ hu := hu.of_eq rfl rfl rfl rfl
  right_remember _ hu := hu.of_eq rfl rfl rfl rfl
  right_unreadable hu hr := hu.unreadable hr
  takes_in {c u path a} key hu hr := by
    have ha := hread path a hr
    have hassembly : (c.add a).assembly? ⟨u.context, u.next⟩ = some a := by
      rw [hu.owning.context, hu.owning.next]
      exact c.assembly?_add a
    exact ⟨c.add a, c.extends_add a, hu.takeIn hr ha key, hassembly, ha, hu.onward.next⟩
  right_primaries _ hu := hu.of_eq rfl rfl rfl rfl
  right_collect hu := hu.collect

end Universe

end ApiEvolution
