import Mathlib
import ApiEvolution.Proofs.Catalog
import ApiEvolution.Proofs.Universe.History
import ApiEvolution.Proofs.Universe.Ownership

/-!
# Universes that share a catalog

A `Multiverse` is any number of universes that read from one catalog, while assemblies are entered
into it, loaded assemblies are put into surface trees, and universes are dropped, all in any order.
The catalog hands out copies without bindings, so the universes share nothing: whatever is bound in
an assembly of a universe is bound to a definition that this universe has read, and it stays so
until it is given up (`Multiverse.bindings_own_and_lasting`).
-/

namespace ApiEvolution

namespace Universe

/-- The assemblies that were read on the way from one state to a later one, in order. -/
def readSince (read : Reader) (u v : Universe) : List Assembly :=
  (v.reads.drop u.reads.length).filterMap fun p => (read p).toOption

/-- Somebody holds an assembly, in whatever way he got hold of it. -/
def hold (id : AssemblyId) (u : Universe) : Universe :=
  { u with primaries := u.primaries ++ [id] }

/-- Assemblies are no longer held unless they are among `held`; those without a name go, and so do
definitions in them that are not among `kept`. -/
def letGo (held : AssemblyId → Bool) (kept : DefinitionId → Bool) (u : Universe) : Universe :=
  let v : Universe := { u with primaries := u.primaries.filter held }
  { v with
    assemblies := (v.assemblies.filter (v.keeps ·.id)).map fun l =>
      { l with assembly := l.assembly.release fun d => v.keeps d.assembly || kept d } }

/-- A kept assembly is put on a side of a surface tree, which binds references in it. -/
def enter (definitions : DefinitionId → Option TypeDefinition) (id : AssemblyId)
    (tree : SurfaceTree) (side : Side) (u : Universe) : Universe :=
  match (u.assembly? id).bind fun l => (tree.enter definitions l side).assemblies.get? side with
  | none => u
  | some l => u.update id fun _ => l.assembly

end Universe

/-! ## Acts -/

/-- A catalog and the universes that read from it, each at the position that is its context. -/
structure Multiverse where
  catalog : Catalog
  universes : List Universe

/-- Something that is done. -/
inductive Act where
  /-- an assembly is entered into the catalog, whatever it is bound to -/
  | insert (path : Path) (a : Assembly)
  /-- a universe is opened -/
  | openUniverse (referencePaths : List Path)
  /-- a universe is asked -/
  | ask (context : Nat) (call : Call)
  /-- an assembly is held from now on -/
  | hold (id : AssemblyId)
  /-- a kept assembly is put into a surface tree -/
  | enter (id : AssemblyId) (tree : SurfaceTree) (side : Side)
  /-- a universe is dropped; what it kept stays as long as it is held -/
  | drop (context : Nat)
  /-- assemblies and definitions are no longer held -/
  | letGo (context : Nat) (held : AssemblyId → Bool) (kept : DefinitionId → Bool)

namespace Multiverse

def empty : Multiverse := ⟨.empty, []⟩

/-- A definition that is kept by some universe. -/
def definition? (m : Multiverse) (id : DefinitionId) : Option TypeDefinition :=
  m.universes[id.assembly.context]?.bind (·.definition? id)

/-- A binding answers the call, in whichever universe its definition is kept. -/
def answers (m : Multiverse) : Call → Bool
  | .resolveType t => t.chain.any fun r => (r.target?.bind m.definition?).isSome
  | _ => false

/-- One universe changes. -/
def change (m : Multiverse) (context : Nat) (f : Universe → Universe) : Multiverse :=
  { m with universes := m.universes.modify context f }

def step (m : Multiverse) : Act → Multiverse
  | .insert path a => { m with catalog := m.catalog.insert path a }
  | .openUniverse referencePaths =>
    { m with universes := m.universes ++ [{ context := m.universes.length, referencePaths }] }
  | .ask context call =>
    if m.answers call then m else m.change context fun u => call.run m.catalog.reader u
  | .hold id => m.change id.context (Universe.hold id)
  | .enter id tree side => m.change id.context (Universe.enter m.definition? id tree side)
  | .drop context => m.change context Universe.close
  | .letGo context held kept => m.change context (Universe.letGo held kept)

/-- What has become after the given acts. -/
def after (acts : List Act) : Multiverse :=
  acts.foldl step empty

/-- The assemblies that the universe `k` reads in the act, in order. -/
def obtained (m : Multiverse) (k : Nat) (act : Act) : List Assembly :=
  match m.universes[k]?, (m.step act).universes[k]? with
  | some u, some v => u.readSince m.catalog.reader v
  | _, _ => []

/-- The assemblies that the universe `k` reads in the acts, in order. -/
def obtainedIn (k : Nat) : Multiverse → List Act → List Assembly
  | _, [] => []
  | m, act :: acts => m.obtained k act ++ obtainedIn k (m.step act) acts

/-- The assemblies that the universe `k` has read in all, in the order of their numbers. -/
def library (k : Nat) (acts : List Act) : List Assembly :=
  obtainedIn k empty acts

end Multiverse

/-! ## What one act does -/

namespace Universe

variable {c : Chronicle} {u v : Universe} {read : Reader}

theorem readSince_of_reads_eq (h : v.reads = u.reads) : u.readSince read v = [] := by
  rw [readSince, h, List.drop_length, List.filterMap_nil]

/-- A universe that is asked goes onward, and has read what it keeps. -/
theorem Owning.call (hu : u.Owning c) (hread : ∀ p a, read p = .ok a → a.detached = a)
    (call : Call) : (call.run read u).Owning
        ⟨c.context, c.entries ++ u.readSince read (call.run read u)⟩ ∧
      u.Onward (call.run read u) := by
  have hstart : Progress read u c.entries c u :=
    ⟨hu, .refl u, [], (List.append_nil _).symm, (List.append_nil _).symm⟩
  obtain ⟨c', hle, hv⟩ : ∃ c', c.Extends c' ∧ Progress read u c.entries c' (call.run read u) := by
    let ledger := ledger hread u c.entries
    cases call with
    | loadPrimary path =>
      obtain ⟨c', hle, hv, -⟩ := ledger.loadPrimary_kept path c u hstart
      exact ⟨c', hle, hv⟩
    | resolveAssembly name =>
      obtain ⟨c', hle, hv, -⟩ := ledger.resolveAssembly_finds name c u hstart
      exact ⟨c', hle, hv⟩
    | resolveType t =>
      obtain ⟨c', hle, hv, -⟩ := ledger.resolveType_leads t c u hstart
      exact ⟨c', hle, hv⟩
  obtain ⟨paths, hreads, hentries⟩ := hv.entries
  have hsince : u.readSince read (call.run read u) =
      paths.filterMap fun p => (read p).toOption := by
    rw [readSince, hreads, List.drop_left]
  have hchronicle : c' = ⟨c.context, c.entries ++ u.readSince read (call.run read u)⟩ := by
    rw [hsince, ← hentries, ← hle.context]
  exact ⟨hchronicle ▸ hv.owning, hv.onward⟩

theorem Owning.eq_of_id (hu : u.Owning c) {l l' : Loaded} (hl : l ∈ u.assemblies)
    (hl' : l' ∈ u.assemblies) (hid : l.id = l'.id) : l = l' :=
  List.inj_on_of_nodup_map hu.distinct hl hl' hid

/-- In a surface tree an assembly is bound to itself. -/
theorem Owning.enter (hu : u.Owning c) (definitions : DefinitionId → Option TypeDefinition)
    (id : AssemblyId) (tree : SurfaceTree) (side : Side) :
    (u.enter definitions id tree side).Owning c ∧ u.Onward (u.enter definitions id tree side) := by
  cases hl : u.assembly? id with
  | none =>
    have hsame : u.enter definitions id tree side = u := by rw [Universe.enter, hl]; rfl
    rw [hsame]
    exact ⟨hu, .refl u⟩
  | some l =>
    have hbound : (tree.enter definitions l side).assemblies.get? side = some l.bound :=
      Pair.get_set _ _ _
    have hentered : u.enter definitions id tree side = u.update id fun _ => l.bound.assembly := by
      rw [Universe.enter, hl, Option.bind_some, hbound]
    have hmem := List.mem_of_find?_eq_some hl
    obtain rfl : l.id = id := assembly?_id hl
    have howns : c.Owns ⟨l.id, l.bound.assembly⟩ := by
      have hid : l.bound.id = l.id := by rw [l.bound_spec.1]
      rw [← hid]
      exact (hu.owns l hmem).bound
    rw [hentered]
    refine ⟨hu.update fun _ _ => howns, (Onward.refl u).update (.inr fun l' hl' hid => ?_)⟩
    rw [hu.eq_of_id hl' hmem hid]
    exact l.onward_bound

end Universe

namespace Multiverse

open Universe

/-- Nothing that the catalog hands out is bound, and the universes keep what they have read, which
are these libraries. -/
structure Sound (libraries : Nat → List Assembly) (m : Multiverse) : Prop where
  pristine : ∀ p a, m.catalog.reader p = .ok a → a.detached = a
  owning : ∀ (k : Nat) (u : Universe), m.universes[k]? = some u → u.Owning ⟨k, libraries k⟩
  unopened : ∀ k : Nat, m.universes[k]? = none → libraries k = []

/-- All universes go onward. -/
def Onward (m m' : Multiverse) : Prop :=
  ∀ (k : Nat) (u : Universe), m.universes[k]? = some u → ∃ v, m'.universes[k]? = some v ∧ u.Onward v

theorem Onward.refl (m : Multiverse) : m.Onward m :=
  fun _ u hu => ⟨u, hu, .refl u⟩

theorem Onward.trans {m m' m'' : Multiverse} (h : m.Onward m') (h' : m'.Onward m'') :
    m.Onward m'' := by
  intro k u hu
  obtain ⟨v, hv, huv⟩ := h k u hu
  obtain ⟨x, hx, hvx⟩ := h' k v hv
  exact ⟨x, hx, huv.trans hvx⟩

variable {m : Multiverse} {libraries : Nat → List Assembly} {act : Act}

theorem obtained_of_none {k : Nat} (h : m.universes[k]? = none) : m.obtained k act = [] := by
  rw [obtained, h]

theorem obtained_of_same {k : Nat} {u : Universe} (h : m.universes[k]? = some u)
    (h' : (m.step act).universes[k]? = some u) : m.obtained k act = [] := by
  rw [obtained, h, h']
  exact readSince_of_reads_eq rfl

/-- All universes stay as they are, and those that were opened have read nothing yet. -/
theorem Sound.keep (h : m.Sound libraries)
    (hpristine : ∀ p a, (m.step act).catalog.reader p = .ok a → a.detached = a)
    (hkept : ∀ (k : Nat) (u : Universe), m.universes[k]? = some u →
      (m.step act).universes[k]? = some u)
    (hopened : ∀ (k : Nat) (u : Universe), m.universes[k]? = none →
      (m.step act).universes[k]? = some u → u.Owning ⟨k, []⟩) :
    (m.step act).Sound (fun k => libraries k ++ m.obtained k act) ∧ m.Onward (m.step act) := by
  have hlibrary (k : Nat) : libraries k ++ m.obtained k act = libraries k := by
    cases hk : m.universes[k]? with
    | none => rw [obtained_of_none hk, List.append_nil]
    | some u => rw [obtained_of_same hk (hkept k u hk), List.append_nil]
  refine ⟨⟨hpristine, fun k v hv => ?_, fun k hk => ?_⟩, fun k u hu => ⟨u, hkept k u hu, .refl u⟩⟩
  · rw [hlibrary k]
    cases hk : m.universes[k]? with
    | none =>
      rw [h.unopened k hk]
      exact hopened k v hk hv
    | some u =>
      obtain rfl : u = v := Option.some.inj ((hkept k u hk).symm.trans hv)
      exact h.owning k u hk
  · rw [hlibrary k]
    refine h.unopened k (Option.eq_none_iff_forall_ne_some.2 fun u hu => ?_)
    rw [hkept k u hu] at hk
    cases hk

/-- Nothing changes. -/
theorem Sound.same (h : m.Sound libraries) (hact : m.step act = m) :
    (m.step act).Sound (fun k => libraries k ++ m.obtained k act) ∧ m.Onward (m.step act) := by
  refine h.keep (by rw [hact]; exact h.pristine) (fun _ _ hu => by rwa [hact])
    fun k u hnone hu => ?_
  rw [hact, hnone] at hu
  cases hu

/-- One universe changes, and goes onward. -/
theorem Sound.change (h : m.Sound libraries) (context : Nat) {f : Universe → Universe}
    (hact : m.step act = m.change context f) (hf : ∀ u, u.Owning ⟨context, libraries context⟩ →
      (f u).Owning ⟨context, libraries context ++ u.readSince m.catalog.reader (f u)⟩ ∧
        u.Onward (f u)) :
    (m.step act).Sound (fun k => libraries k ++ m.obtained k act) ∧ m.Onward (m.step act) := by
  have hself : (m.step act).universes[context]? = m.universes[context]?.map f := by
    rw [hact]
    exact List.getElem?_modify_eq f context m.universes
  have hother {k : Nat} (hk : context ≠ k) : (m.step act).universes[k]? = m.universes[k]? := by
    rw [hact]
    exact List.getElem?_modify_ne f m.universes hk
  refine ⟨⟨by rw [hact]; exact h.pristine, fun k v hv => ?_, fun k hk => ?_⟩, fun k u hu => ?_⟩
  · by_cases hk : context = k
    · subst hk
      rw [hself] at hv
      obtain ⟨u, hu, rfl⟩ := Option.map_eq_some_iff.1 hv
      have hobtained : m.obtained context act = u.readSince m.catalog.reader (f u) := by
        rw [obtained, hself, hu, Option.map_some]
      rw [hobtained]
      exact (hf u (h.owning context u hu)).1
    · have hu := (hother hk).symm.trans hv
      rw [obtained_of_same hu hv, List.append_nil]
      exact h.owning k v hu
  · have hnone : m.universes[k]? = none := by
      by_cases e : context = k
      · subst e
        rwa [hself, Option.map_eq_none_iff] at hk
      · rwa [hother e] at hk
    rw [h.unopened k hnone, obtained_of_none hnone, List.append_nil]
  · by_cases hk : context = k
    · subst hk
      exact ⟨f u, by rw [hself, hu, Option.map_some], (hf u (h.owning context u hu)).2⟩
    · exact ⟨u, (hother hk).trans hu, .refl u⟩

/-- One universe changes and reads nothing. -/
theorem Sound.change_unread (h : m.Sound libraries) (context : Nat) {f : Universe → Universe}
    (hact : m.step act = m.change context f) (hreads : ∀ u, (f u).reads = u.reads)
    (hf : ∀ u c, u.Owning c → (f u).Owning c ∧ u.Onward (f u)) :
    (m.step act).Sound (fun k => libraries k ++ m.obtained k act) ∧ m.Onward (m.step act) := by
  refine h.change context hact fun u hu => ?_
  rw [readSince_of_reads_eq (hreads u), List.append_nil]
  exact hf u _ hu

/-- Whatever is done, the universes keep what they have read, and they go onward. -/
theorem Sound.step (h : m.Sound libraries) (act : Act) :
    (m.step act).Sound (fun k => libraries k ++ m.obtained k act) ∧ m.Onward (m.step act) := by
  cases act with
  | insert path a =>
    refine h.keep (fun p b hb => ?_) (fun _ _ hu => hu) fun k u hnone hu => ?_
    · have hread : (m.catalog.insert path a).reader p = .ok b := hb
      rw [Catalog.reader_insert] at hread
      split at hread
      · cases hread
        exact a.detached_detached
      · exact h.pristine p b hread
    · exact absurd (hnone.symm.trans hu) nofun
  | openUniverse referencePaths =>
    refine h.keep h.pristine (fun k u hu => ?_) fun k u hnone hu => ?_
    · rw [Multiverse.step, List.getElem?_append_left (List.getElem?_eq_some_iff.1 hu).1, hu]
    · have hle := List.getElem?_eq_none_iff.1 hnone
      rw [Multiverse.step, List.getElem?_append_right hle, List.getElem?_singleton] at hu
      split at hu
      · next hlast =>
        cases hu
        obtain rfl : k = m.universes.length := by omega
        exact ⟨rfl, rfl, nofun, nofun, List.nodup_nil⟩
      · cases hu
  | ask context call =>
    by_cases hanswer : m.answers call
    · exact h.same (if_pos hanswer)
    · exact h.change context (if_neg hanswer) fun u hu => hu.call h.pristine call
  | hold id =>
    exact h.change_unread id.context rfl (fun _ => rfl) fun u c hu =>
      ⟨hu.of_eq rfl rfl rfl, .of_eq rfl rfl⟩
  | enter id tree side =>
    refine h.change_unread id.context rfl (fun u => ?_) fun u c hu => hu.enter _ id tree side
    rw [Universe.enter]
    split <;> rfl
  | drop context =>
    exact h.change_unread context rfl (fun _ => rfl) fun u c hu =>
      ⟨hu.of_release rfl rfl rfl, .of_release rfl rfl⟩
  | letGo context held kept =>
    exact h.change_unread context rfl (fun _ => rfl) fun u c hu =>
      ⟨hu.of_release rfl rfl rfl, .of_release rfl rfl⟩

/-- Whatever is done one after the other, the universes keep what they have read, and they go
onward. -/
theorem Sound.foldl (h : m.Sound libraries) (acts : List Act) :
    (acts.foldl Multiverse.step m).Sound (fun k => libraries k ++ m.obtainedIn k acts) ∧
      m.Onward (acts.foldl Multiverse.step m) := by
  induction acts generalizing m libraries with
  | nil =>
    simp only [obtainedIn, List.append_nil]
    exact ⟨h, .refl m⟩
  | cons act acts ih =>
    obtain ⟨hnext, honward⟩ := h.step act
    obtain ⟨hlast, honward'⟩ := ih hnext
    simp only [obtainedIn, ← List.append_assoc]
    exact ⟨hlast, honward.trans honward'⟩

theorem sound_after (acts : List Act) : (after acts).Sound fun k => library k acts := by
  have hempty : empty.Sound fun _ => [] :=
    ⟨fun p a ha => (by cases ha), fun k u hu => (by cases hu), fun _ _ => rfl⟩
  exact (hempty.foldl acts).1

/-- Universes over one catalog share no bindings: what is bound in an assembly that a universe keeps
is bound to a definition of an assembly that the same universe has read, at the top and in all
declaring types. While more is done, whatever it is, a binding that was made stays as it is until
its definition is given up. -/
theorem bindings_own_and_lasting (past future : List Act) {k : Nat} {u v : Universe}
    (hu : (after past).universes[k]? = some u)
    (hv : (after (past ++ future)).universes[k]? = some v) :
    (∀ l ∈ u.assemblies, l.id.context = k ∧
      (library k past)[l.id.number]? = some l.assembly.detached ∧
        ∀ r ∈ l.assembly.occurrences, ∀ id d, r.binding = .resolved id d →
          id.assembly.context = k ∧ ∃ a t, (library k past)[id.assembly.number]? = some a ∧
            a.definitionAt? id.position = some t ∧ t.descriptor = d) ∧
    ∀ l ∈ u.assemblies, ∀ l' ∈ v.assemblies, l'.id = l.id →
      l'.assembly.detached = l.assembly.detached ∧
        List.Forall₂ TypeRef.Onward l.assembly.occurrences l'.assembly.occurrences := by
  have hsound := sound_after past
  have howning := hsound.owning k u hu
  refine ⟨fun l hl => ?_, fun l hl l' hl' hid => ?_⟩
  · have howns := howning.owns l hl
    obtain ⟨hcontext, hread⟩ := Chronicle.assembly?_eq_some_iff.1 howns.assembly
    refine ⟨hcontext, hread, fun r hr id d hd => ?_⟩
    obtain ⟨t, ht, hdescriptor⟩ := howns.describes_of_mem_occurrences hr hd
    obtain ⟨a, ha, hat⟩ := Option.bind_eq_some_iff.1 ht
    obtain ⟨hcontext, hread⟩ := Chronicle.assembly?_eq_some_iff.1 ha
    exact ⟨hcontext, a, t, hread, hat, hdescriptor⟩
  · obtain ⟨x, hx, honward⟩ :
        ∃ x, (after (past ++ future)).universes[k]? = some x ∧ u.Onward x := by
      rw [after, List.foldl_append]
      exact (hsound.foldl future).2 k u hu
    obtain rfl : x = v := Option.some.inj (hx.symm.trans hv)
    rcases honward.assemblies l' hl' with ⟨k', hk', hid', hass⟩ | hlater
    · obtain rfl : k' = l := howning.eq_of_id hk' hl (hid'.trans hid)
      exact ⟨hass.detached, hass.occurrences⟩
    · have hlt := howning.number_lt hl
      rw [hid] at hlater
      omega

/-! ## An assembly that is entered with bindings -/

/-- The type `T` of `L`, bound in the first universe. -/
def boundBefore : TypeRef :=
  .mk "" "T" (.assembly (.simple "L"))
    (.resolved ⟨⟨0, 1⟩, [0]⟩ (.mk "" "T" (.assembly (.simple "L")) .definition))

/-- What was bound in the first universe is entered, and the second one loads it. -/
def handedOn : List Act :=
  [.insert ⟨"L"⟩ (.of "L" [.hidden "T"] []), .insert ⟨"P"⟩ (.of "P" [.box [boundBefore]] []),
    .openUniverse [⟨"L"⟩], .openUniverse [⟨"L"⟩], .ask 0 (.loadPrimary ⟨"P"⟩),
    .ask 1 (.loadPrimary ⟨"P"⟩)]

/-- The catalog changes, the assembly is put into a tree, and both universes are dropped. -/
def droppedLater : List Act :=
  [.insert ⟨"L"⟩ (.of "L" [] []),
    .enter ⟨1, 0⟩ ⟨.everything, .leftOnly ⟨⟨1, 0⟩, .of "P" [] []⟩, .empty, [], []⟩ .left,
    .drop 0, .drop 1]

/-- The second universe binds the reference to what it has read itself, and gives that up when it is
dropped. -/
theorem bindings_own_and_lasting_handedOn : ∃ u v, (after handedOn).universes[1]? = some u ∧
    (after (handedOn ++ droppedLater)).universes[1]? = some v ∧
      ∃ l ∈ u.assemblies, ∃ l' ∈ v.assemblies, l'.id = l.id ∧
        l.assembly.references.map TypeRef.target? = [some ⟨⟨1, 1⟩, [0]⟩] ∧
        l'.assembly.references.map TypeRef.isDangling = [true] ∧
        (library 1 handedOn)[l.id.number]? = some l.assembly.detached ∧
        List.Forall₂ TypeRef.Onward l.assembly.occurrences l'.assembly.occurrences := by
  let targets (u : Universe) := u.assemblies.map fun l =>
    (l.id, l.assembly.references.map TypeRef.target?, l.assembly.references.map TypeRef.isDangling)
  have hpast : (after handedOn).universes[1]?.map targets =
      some [(⟨1, 0⟩, [some ⟨⟨1, 1⟩, [0]⟩], [false]), (⟨1, 1⟩, [], [])] := by cbv
  have hnow : (after (handedOn ++ droppedLater)).universes[1]?.map targets =
      some [(⟨1, 0⟩, [none], [true])] := by cbv
  obtain ⟨u, hu, htargets⟩ := Option.map_eq_some_iff.1 hpast
  obtain ⟨v, hv, htargets'⟩ := Option.map_eq_some_iff.1 hnow
  obtain ⟨l, ls, hassemblies, hl, -⟩ := List.map_eq_cons_iff.1 htargets
  obtain ⟨l', ls', hassemblies', hl', -⟩ := List.map_eq_cons_iff.1 htargets'
  simp only [Prod.mk.injEq] at hl hl'
  have hmem : l ∈ u.assemblies := hassemblies ▸ List.mem_cons_self
  have hmem' : l' ∈ v.assemblies := hassemblies' ▸ List.mem_cons_self
  have hid : l'.id = l.id := hl'.1.trans hl.1.symm
  obtain ⟨hown, hlasting⟩ := bindings_own_and_lasting handedOn droppedLater hu hv
  exact ⟨u, v, hu, hv, l, hmem, l', hmem', hid, hl.2.1, hl'.2.2, (hown l hmem).2.1,
    (hlasting l hmem l' hmem' hid).2⟩

end Multiverse

end ApiEvolution
