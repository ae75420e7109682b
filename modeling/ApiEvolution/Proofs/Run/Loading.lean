import ApiEvolution.Proofs.Universe.Binding
import ApiEvolution.Proofs.Universe.Exactness
import ApiEvolution.Run.Comparison

/-!
# Loading a build

The assemblies that a build can refer to are its `Build.world`: its own assembly under its own name,
and under every other simple name the first reference path of that name. Loading the build answers
all references by what they lead to in that world (`Build.load_run`).
-/

namespace ApiEvolution

open Universe

variable {w : World} {read : Reader}

theorem Universe.resolveAssembly_resolves (hfresh : w.Fresh) (bound : Nat) :
    Resolves w read bound (resolveAssembly read) := by
  intro pending u name h _
  have hrun : (resolveAssembly read name).run u =
      (resolveAssemblyWithin read u.referencePaths.length name).run u := rfl
  rw [hrun]
  exact resolveAssemblyWithin_resolves hfresh _ pending u name h List.countP_le_length

namespace Build

/-- Every assembly that the build can read is of the given kind. -/
def Reads (b : Build) (read : Reader) (kind : Assembly → Prop) : Prop :=
  ∀ p ∈ b.assembly :: b.references, ∀ a, read p = .ok a → kind a

/-- What simple names lead to in a build whose own assembly is `a`. -/
def world (b : Build) (read : Reader) (a : Assembly) : World := fun k =>
  if k = key a.name then some a
  else (b.references.find? fun p => p.stem?.any (Text.lower · == k)).bind fun p => (read p).toOption

variable {b : Build} {a : Assembly}

theorem world_own : b.world read a (key a.name) = some a :=
  if_pos rfl

theorem mem_of_world {k : String} {c : Assembly} (hc : b.world read a k = some c) :
    c = a ∨ ∃ p ∈ b.references, read p = .ok c := by
  unfold world at hc
  split at hc
  · cases hc
    exact .inl rfl
  · obtain ⟨p, hp, hc⟩ := Option.bind_eq_some_iff.1 hc
    cases hr : read p with
    | error e =>
      rw [hr] at hc
      cases hc
    | ok c' =>
      rw [hr] at hc
      cases hc
      exact .inr ⟨p, List.mem_of_find?_eq_some hp, hr⟩

theorem Reads.of_world {kind : Assembly → Prop} (h : b.Reads read kind)
    (ha : read b.assembly = .ok a) {k : String} {c : Assembly} (hc : b.world read a k = some c) :
    kind c := by
  rcases mem_of_world hc with rfl | ⟨p, hp, hr⟩
  · exact h _ List.mem_cons_self _ ha
  · exact h p (List.mem_cons_of_mem _ hp) c hr

theorem world_fresh (hread : b.Reads read fun c => c.detached = c) (ha : read b.assembly = .ok a) :
    (b.world read a).Fresh := by
  intro k c hc t ht
  exact Assembly.detached_of_mem_references (hread.of_world ha hc) ht

/-- The universe of a build whose own assembly has just been read. -/
def started (b : Build) (context : Nat) (a : Assembly) : Universe :=
  { context
    referencePaths := b.references
    names := [(key a.name, some ⟨context, 0⟩)]
    assemblies := [⟨⟨context, 0⟩, a⟩]
    primaries := [⟨context, 0⟩]
    next := 1
    reads := [b.assembly] }

theorem started_remembered? (context : Nat) (k : String) :
    (b.started context a).remembered? k =
      if k = key a.name then some (some ⟨context, 0⟩) else none := by
  rw [started, remembered?, List.lookup_cons]
  by_cases h : k = key a.name
  · simp [h]
  · simp [h, beq_eq_false_iff_ne.2 h]

theorem started_assembly? (context : Nat) :
    (b.started context a).assembly? ⟨context, 0⟩ = some ⟨⟨context, 0⟩, a⟩ := by
  simp [started, assembly?]

theorem started_sound (context : Nat) :
    (b.started context a).Sound (b.world read a) read [⟨context, 0⟩] := by
  have hentry := started_remembered? (b := b) (a := a) context
  have hown : ∀ k id, (b.started context a).remembered? k = some (some id) →
      k = key a.name ∧ id = ⟨context, 0⟩ := by
    intro k id he
    rw [hentry] at he
    split at he
    · next h => exact ⟨h, (Option.some.inj (Option.some.inj he)).symm⟩
    · cases he
  refine ⟨fun k he => ?_, fun k id he => ?_, fun k id c l he _ _ hp => ?_,
    fun k k' id he he' => ?_, fun l hl => ?_, fun l hl => ?_, fun name he => ?_⟩
  · rw [hentry] at he
    split at he <;> cases he
  · obtain ⟨rfl, rfl⟩ := hown k id he
    refine ⟨a, _, world_own, started_assembly? context, rfl, ?_⟩
    exact List.forall₂_same.2 fun m _ => ⟨rfl, List.forall₂_same.2 fun _ _ => .inl rfl⟩
  · obtain ⟨-, rfl⟩ := hown k id he
    exact absurd (List.mem_singleton_self _) hp
  · exact (hown k' id he').1.trans (hown k id he).1.symm
  · rw [List.mem_singleton.1 hl]
    exact ⟨key a.name, by rw [hentry, if_pos rfl]⟩
  · rw [List.mem_singleton.1 hl]
    exact ⟨rfl, Nat.one_pos⟩
  · rw [hentry] at he
    split at he
    · cases he
    · next hne =>
      have hsame : (fun p : Path => p.stem?.any (Text.lower · == key name)) =
          fun p => p.stem?.any (Text.sameLetters · name.name) := rfl
      rw [world, if_neg hne, hsame]
      rfl

/-- Reading comes first, then the references are bound. -/
theorem load_eq (context : Nat) (ha : read b.assembly = .ok a) (hdetached : a.detached = a) :
    b.load read context = match (bindAssembly (resolveAssembly read) ⟨⟨context, 0⟩, a⟩).run
      (b.started context a) with
      | (l, u) => (.ok l, u) := by
  let u := b.newUniverse context
  have hcollect : ({ ((u.noteRead b.assembly).takeIn (key a.name) a).2 with
      primaries := u.primaries ++ [⟨u.context, u.next⟩] } : Universe).collect =
        b.started context a := by
    simp [u, collect, newUniverse, noteRead, takeIn, remember, started, keeps,
      Assembly.release_of_detached hdetached]
  rw [load, loadPrimary_run_ok ha, hcollect, StateT.run_map]
  rfl

/-- An assembly is loaded with all its references answered, and so are those that were read on the
way. -/
theorem load_run (context : Nat) (hread : b.Reads read fun c => c.detached = c)
    (ha : read b.assembly = .ok a) : ∃ c u,
      b.load read context = (.ok ⟨⟨context, 0⟩, c⟩, u) ∧ u.Sound (b.world read a) read [] ∧
      (b.started context a).Precedes u ∧ (b.world read a).Settled u a c := by
  have hfresh := world_fresh hread ha
  have hentry : (b.started context a).remembered? (key a.name) = some (some ⟨context, 0⟩) :=
    (started_remembered? context _).trans (if_pos rfl)
  obtain ⟨c, u, hrun, hu, hadvances, -, hsettled⟩ := bindAssembly_run
    (resolveAssembly_resolves hfresh _) hfresh (started_sound context) (Nat.le_refl _) hentry world_own
    (started_assembly? context)
  refine ⟨c, u, ?_, hu, hadvances.precedes, hsettled⟩
  rw [load_eq context ha (hread _ List.mem_cons_self _ ha), hrun]

/-- Without long chains of exported types, the references are bound to what they lead to. -/
theorem load_exact (context : Nat) (hread : b.Reads read fun c => c.detached = c)
    (ha : read b.assembly = .ok a) (hshallow : (b.world read a).Shallow (maxForwards + 1)) :
    ∃ u, b.load read context =
        (.ok ⟨⟨context, 0⟩, a.rebind ((b.world read a).bindIn u)⟩, u) ∧
      u.Exact (b.world read a) ∧ u.context = context ∧
      ∀ r ∈ a.references, (b.world read a).Known u r := by
  obtain ⟨c, u, hrun, hu, hprecedes, hsettled⟩ := load_run context hread ha
  obtain ⟨hrebind, hknown⟩ := hsettled.exact hshallow
  exact ⟨u, by rw [hrun, hrebind], hu.exact hshallow, hprecedes.context, hknown⟩

end Build

end ApiEvolution
