import ApiEvolution.Proofs.Pairing.Localized
import ApiEvolution.Proofs.Run.Surface

/-!
# The differences of a job

The differences that a job finds are a function of what its two builds bring and of what is seen of
their references (`Job.differences_outcome`). Neither the order in which assemblies are read nor
the way they are remembered has a part in it.
-/

namespace ApiEvolution

open Universe

/-! ## Nothing is left to bind -/

/-- Nothing is left to bind in an assembly whose references are all bound. -/
theorem Loaded.bound_of_isBound {l : Loaded}
    (h : ∀ m ∈ l.assembly.modules, ∀ r ∈ TypeDefinition.refsOf m.types, r.isBound) : l.bound = l := by
  have hlocal : ∀ r : TypeRef, r.isBound → l.localize r = r := by
    intro r hr
    obtain ⟨space, name, scope, binding⟩ := r
    cases binding with
    | unbound => cases hr
    | _ => rfl
  have hmodules : (l.assembly.modules.map fun m =>
      { m with types := TypeDefinition.rebindAll l.localize m.types }) = l.assembly.modules := by
    refine (List.map_congr_left fun m hm => ?_).trans (List.map_id' _)
    have htypes : TypeDefinition.rebindAll l.localize m.types = m.types :=
      (TypeDefinition.rebindAll_congr fun r hr => hlocal r (h m hm r hr)).trans
        (TypeDefinition.rebindAll_id m.types)
    rw [htypes]
  rw [l.bound_spec.1, hmodules]

theorem World.isBound_bindIn (w : World) (u : Universe) (t : TypeRef) : (w.bindIn u t).isBound := by
  rw [bindIn]
  split
  · assumption
  · rw [bindingIn]
    cases w.lookup t with
    | none => rfl
    | some x =>
      cases hid : u.idOf x.key with
      | none =>
        simp only [hid]
        rfl
      | some id =>
        simp only [hid]
        rfl

theorem Loaded.bound_rebind (w : World) (u : Universe) (id : AssemblyId) (a : Assembly) :
    Loaded.bound ⟨id, a.rebind (w.bindIn u)⟩ = ⟨id, a.rebind (w.bindIn u)⟩ := by
  refine bound_of_isBound fun m hm r hr => ?_
  obtain ⟨m, -, rfl⟩ := List.mem_map.1 hm
  have hrefs : r ∈ TypeDefinition.refsOf (TypeDefinition.rebindAll (w.bindIn u) m.types) := hr
  rw [TypeDefinition.refsOf_rebindAll] at hrefs
  obtain ⟨q, -, rfl⟩ := List.mem_map.1 hrefs
  exact w.isBound_bindIn u q

/-! ## Jobs -/

theorem Build.world_pristine {read : Reader} {b : Build} (hread : b.Reads read Assembly.Pristine)
    {a : Assembly} (ha : read b.assembly = .ok a) : (b.world read a).Pristine :=
  fun _ _ hc => hread.of_world ha hc

/-- What a comparison sees of a build whose own assembly is `a`. -/
def Build.seen (b : Build) (read : Reader) (s : Selection) (a : Assembly) : List TypeDefinition :=
  ((b.world read a).surface s a).map (.seen (b.world read a).sight)

/-- A build is loaded so that a comparison sees what there is to see. -/
theorem Build.load_seen {read : Reader} {b : Build} (hread : b.Reads read Assembly.Pristine)
    {a : Assembly} (context : Nat) (ha : read b.assembly = .ok a)
    (hshallow : (b.world read a).Shallow (maxForwards + 1)) {s : Selection} (hs : s.Blind) :
    ∃ l u, b.load read context = (.ok l, u) ∧ u.context = context ∧ l.bound = l ∧
      ∀ definitions, u.AnsweredBy definitions →
        (s.surface definitions l.assembly).map TypeDefinition.blurred = b.seen read s a ∧
        ∀ t ∈ s.surface definitions l.assembly, t.Proper := by
  have hw := world_pristine hread ha
  obtain ⟨u, hrun, hu, hcontext, hknown⟩ :=
    load_exact context (fun p hp c hc => (hread p hp c hc).unbound) ha hshallow
  refine ⟨_, u, hrun, hcontext, Loaded.bound_rebind _ u _ a,
    fun definitions hdefinitions => ⟨?_, ?_⟩⟩
  · exact World.surface_blurred hs hw hu hdefinitions world_own hknown
  · intro t ht
    rw [World.surface_rebind hs hw hu hdefinitions world_own hknown] at ht
    obtain ⟨t', ht', rfl⟩ := List.mem_map.1 ht
    exact World.proper_rebind hw world_own ht'

/-- All assemblies of the job are as they were declared. -/
def Job.Pristine (j : Job) (read : Reader) : Prop :=
  j.left.Reads read Assembly.Pristine ∧ j.right.Reads read Assembly.Pristine

/-- The differences of a job depend on what is seen of its builds only. -/
theorem Job.differences_outcome {read : Reader} {j : Job} (hread : j.Pristine read)
    {a b : Assembly} (ha : read j.left.assembly = .ok a) (hb : read j.right.assembly = .ok b)
    (hleft : (j.left.world read a).Shallow (maxForwards + 1))
    (hright : (j.right.world read b).Shallow (maxForwards + 1)) {s : Selection} (hs : s.Blind) :
    (j.outcome read s).map (·.differences) =
      .ok (s.differencesOf Rule.all (j.left.seen read s a) (j.right.seen read s b)) := by
  obtain ⟨l, u, hl, hu, hlbound, hlseen⟩ := j.left.load_seen hread.1 0 ha hleft hs
  obtain ⟨r, v, hr, hv, hrbound, hrseen⟩ := j.right.load_seen hread.2 1 hb hright hs
  have hleft : u.AnsweredBy (definitionsOf u v) := fun id hid => if_pos hid
  have hright : v.AnsweredBy (definitionsOf u v) := fun id hid => if_neg (by omega)
  obtain ⟨hlsame, hlproper⟩ := hlseen _ hleft
  obtain ⟨hrsame, hrproper⟩ := hrseen _ hright
  have hdifferences := SurfaceTree.differences_ofBuilds hs Rule.all (definitionsOf u v) l r (by
    rw [hlbound, hrbound]
    intro t ht
    exact (List.mem_append.1 ht).elim (hlproper t) (hrproper t))
  rw [hlbound, hrbound, hlsame, hrsame] at hdifferences
  rw [← hdifferences, outcome, run, hl]
  simp only [hr]
  rfl

end ApiEvolution
