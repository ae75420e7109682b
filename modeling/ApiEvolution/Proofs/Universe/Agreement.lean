import Mathlib
import ApiEvolution.Proofs.Surface.InStep
import ApiEvolution.Proofs.Surface.Mapping
import ApiEvolution.Proofs.Universe.Growing
import ApiEvolution.Proofs.Universe.Runs

/-!
# Demands come to an end

Finding an assembly may bind its references, which may demand other assemblies, and so on. `demand`
is what is done for one demand, as a function of what is done for those that it leads to. A demand
that leads to others has remembered one more name that a reference path bears, so demands are
nested less deep than there are paths left to read: unrolled that often, `demand` gives the same
result whatever stands at the end (`agree_iterate`), which is what `resolveAssembly` gives
(`iterate_demand_run`). So `resolveAssembly` solves the recursion without a bound
(`resolveAssembly_eq_demand`).
-/

namespace ApiEvolution

namespace Universe

open Coupling

variable {α β : Type} {P : Universe → Prop}

/-! ## Steps that agree -/

/-- From a state of which `P` holds, the first step leads to one of which it holds, and the second
step does the same as the first one. -/
abbrev Agree (P : Universe → Prop) (x y : UniverseM α) : Prop :=
  (Coupling.mk P id).InStep id x y

theorem run_of_agree {x y : UniverseM α} (h : Agree P x y) {u : Universe} (hu : P u) :
    y.run u = x.run u :=
  (h u hu).2

/-- Reports on types and changes to assemblies do not matter. -/
structure Lasting (P : Universe → Prop) : Prop where
  report : ∀ u name origin, P u → P (u.report ⟨.typeUnresolved name, origin⟩)
  update : ∀ u id f, P u → P (u.update id f)

theorem agree_types {f g : TypeRef → UniverseM TypeRef} (h : ∀ t, Agree P (f t) (g t))
    (ts : List TypeDefinition) :
    Agree P (TypeDefinition.traverseAll f ts) (TypeDefinition.traverseAll g ts) := by
  have hmeets : (Coupling.mk P id).Meets id f g := h
  intro u hu
  obtain ⟨hv, hrun⟩ := inStep_types hmeets ts u hu
  rw [TypeDefinition.mapAll_id, TypeDefinition.mapAll_id] at hrun
  exact ⟨hv, hrun⟩

theorem agree_modify {f : Universe → Universe} (h : ∀ u, P u → P (f u)) :
    Agree P (modify f) (modify f) :=
  inStep_modify h fun _ => rfl

theorem agree_map {x y : UniverseM α} (h : Agree P x y) (f : α → β) :
    Agree P (f <$> x) (f <$> y) := by
  intro u hu
  obtain ⟨hv, hrun⟩ := h u hu
  exact ⟨hv, congrArg (fun r : α × Universe => (f r.1, r.2)) hrun⟩

section Resolution

variable {resolve resolve' : AssemblyResolver}
  {follow follow' : TypeRef → UniverseM (Option Definition)}

theorem agree_resolveInAssembly (hfollow : ∀ t, Agree P (follow t) (follow' t))
    (space name : String) (l : Loaded) :
    Agree P (resolveInAssembly follow space name l) (resolveInAssembly follow' space name l) := by
  unfold resolveInAssembly
  cases l.assembly.find? space name with
  | some f => exact inStep_pure _
  | none =>
    cases l.assembly.findExported? space name with
    | none => exact inStep_pure _
    | some forwarder =>
      dsimp only
      split
      · exact inStep_pure _
      · exact hfollow forwarder

mutual

theorem agree_resolveStep (hresolve : ∀ a, Agree P (resolve a) (resolve' a))
    (hfollow : ∀ t, Agree P (follow t) (follow' t)) : (t : TypeRef) →
    Agree P (resolveStep resolve follow t) (resolveStep resolve' follow' t)
  | .mk space name scope binding => by
    unfold resolveStep
    refine inStep_get fun u _ => ?_
    dsimp only [id_eq]
    cases u.bound? binding with
    | some d => exact inStep_pure _
    | none => exact agree_resolveScope hresolve hfollow space name scope

theorem agree_resolveScope (hresolve : ∀ a, Agree P (resolve a) (resolve' a))
    (hfollow : ∀ t, Agree P (follow t) (follow' t)) (space name : String) : (s : Scope) →
    Agree P (resolveScope resolve follow space name s) (resolveScope resolve' follow' space name s)
  | .assembly a => by
    unfold resolveScope
    refine inStep_bind (hresolve a) fun found => ?_
    cases found with
    | some l => exact agree_resolveInAssembly hfollow space name l
    | none => exact inStep_pure _
  | .nested declaring => by
    unfold resolveScope
    refine inStep_bind (agree_resolveStep hresolve hfollow declaring) fun found => ?_
    cases found with
    | some d => exact inStep_pure _
    | none => exact inStep_pure _

end

theorem agree_resolveWithin (hresolve : ∀ a, Agree P (resolve a) (resolve' a)) (hops : Nat)
    (t : TypeRef) : Agree P (resolveWithin resolve hops t) (resolveWithin resolve' hops t) := by
  induction hops generalizing t with
  | zero => exact inStep_get fun _ _ => inStep_pure _
  | succ hops ih => exact agree_resolveStep hresolve ih t

theorem agree_resolveTypeBy (hresolve : ∀ a, Agree P (resolve a) (resolve' a)) (t : TypeRef) :
    Agree P (resolveTypeBy resolve t) (resolveTypeBy resolve' t) :=
  agree_resolveWithin hresolve (maxForwards + 1) t

variable (hP : Lasting P)
include hP

theorem agree_bindReference (hresolve : ∀ a, Agree P (resolve a) (resolve' a))
    (origin : AssemblyName) (t : TypeRef) :
    Agree P (bindReference resolve origin t) (bindReference resolve' origin t) := by
  unfold bindReference
  split
  · exact inStep_pure _
  · refine inStep_bind (agree_resolveTypeBy hresolve t) fun found => ?_
    cases found with
    | some d => exact inStep_pure _
    | none =>
      exact inStep_bind (agree_modify fun u hu => hP.report u _ _ hu) fun _ => inStep_pure _

theorem agree_bindExported {bind bind' : TypeRef → UniverseM TypeRef}
    (hbind : ∀ t, Agree P (bind t) (bind' t)) (id : AssemblyId) (module position : Nat)
    (ts : List TypeRef) :
    Agree P (bindExported bind id module position ts)
      (bindExported bind' id module position ts) := by
  induction ts generalizing position with
  | nil => exact inStep_pure _
  | cons t ts ih =>
    unfold bindExported
    refine inStep_bind (hbind t) fun t' => ?_
    refine inStep_bind (agree_modify fun u hu => hP.update u id _ hu) fun _ => ?_
    exact inStep_bind (ih (position + 1)) fun _ => inStep_pure _

theorem agree_bindModules {bind bind' : TypeRef → UniverseM TypeRef}
    (hbind : ∀ t, Agree P (bind t) (bind' t)) (id : AssemblyId) (module : Nat) (ms : List Module) :
    Agree P (bindModules bind id module ms) (bindModules bind' id module ms) := by
  induction ms generalizing module with
  | nil => exact inStep_pure _
  | cons m ms ih =>
    unfold bindModules
    refine inStep_bind (agree_types hbind m.types) fun types => ?_
    refine inStep_bind (agree_bindExported hP hbind id module 0 m.exported) fun exported => ?_
    exact inStep_bind (ih (module + 1)) fun _ => inStep_pure _

theorem agree_bindAssembly (hresolve : ∀ a, Agree P (resolve a) (resolve' a)) (l : Loaded) :
    Agree P (bindAssembly resolve l) (bindAssembly resolve' l) := by
  unfold bindAssembly
  refine inStep_bind (agree_bindModules hP (agree_bindReference hP hresolve l.assembly.name) l.id 0
    l.assembly.modules) fun ms => ?_
  exact inStep_bind (agree_modify fun u hu => hP.update u l.id _ hu) fun _ => inStep_pure _

end Resolution

/-! ## Demands -/

/-- Finds an assembly by its name, reading it if the name is new; `resolve` finds the assemblies
that its references name. -/
def demand (read : Reader) (resolve : AssemblyResolver) : AssemblyResolver := fun name => do
  let u ← get
  match u.remembered? (key name) with
  | some entry => pure (entry.bind u.assembly?)
  | none =>
    match u.referencePath? name with
    | none =>
      modify fun u => (u.report ⟨.assemblyNotFound name, none⟩).remember (key name) none
      pure none
    | some path =>
      modify (noteRead path)
      match read path with
      | .error e =>
        modify fun u =>
          (u.report ⟨.assemblyUnreadable name path e, none⟩).remember (key name) none
        pure none
      | .ok a =>
        let l ← modifyGet (takeIn (key name) a)
        some <$> bindAssembly resolve l

theorem resolveAssemblyWithin_succ (read : Reader) (depth : Nat) :
    resolveAssemblyWithin read (depth + 1) = demand read (resolveAssemblyWithin read depth) := by
  funext name
  rw [resolveAssemblyWithin]
  rfl

theorem Recalls.refl (u : Universe) : u.Recalls u :=
  ⟨rfl, fun _ hu => hu⟩

theorem Recalls.trans {u v x : Universe} (h : u.Recalls v) (h' : v.Recalls x) : u.Recalls x :=
  ⟨h'.paths.trans h.paths, fun key hu => h'.remembers key (h.remembers key hu)⟩

theorem Recalls.of_names {u v x : Universe} (h : u.Recalls v)
    (hpaths : x.referencePaths = v.referencePaths) (hnames : x.names = v.names) : u.Recalls x := by
  refine ⟨hpaths.trans h.paths, fun key hu => ?_⟩
  rw [remembered?, hnames]
  exact h.remembers key hu

theorem recalls_remember (u : Universe) (k : String) (entry : Option AssemblyId) :
    u.Recalls (u.remember k entry) := by
  refine ⟨rfl, fun key hu => ?_⟩
  rw [remembered?_remember]
  split
  · rfl
  · exact hu

/-- A name that is remembered from now on leaves less to read. -/
theorem unreadCount_remember_lt {u : Universe} {name : AssemblyName} {p : Path}
    (he : u.remembered? (key name) = none) (hp : u.referencePath? name = some p)
    (entry : Option AssemblyId) : (u.remember (key name) entry).unreadCount < u.unreadCount := by
  refine (recalls_remember u (key name) entry).unreadCount_lt hp he ?_
  rw [remembered?_remember, if_pos rfl]
  rfl

section Unrolling

variable {read : Reader} {resolve resolve' bottom bottom' : AssemblyResolver} {depth : Nat}

theorem lasting_unreadCount (depth : Nat) : Lasting fun u => u.unreadCount < depth :=
  ⟨fun _ _ _ hu => hu, fun _ _ _ hu => hu⟩

/-- Demands agree if those agree that they lead to, which leave less to read. -/
theorem agree_demand (h : ∀ a, Agree (·.unreadCount < depth) (resolve a) (resolve' a))
    (name : AssemblyName) :
    Agree (·.unreadCount < depth + 1) (demand read resolve name) (demand read resolve' name) := by
  intro u hu
  unfold demand
  simp only [id_eq, StateT.run_bind, StateT.run_get, pure_bind]
  cases he : u.remembered? (key name) with
  | some entry => exact ⟨hu, rfl⟩
  | none =>
    cases hp : u.referencePath? name with
    | none =>
      have hle := (recalls_remember (u.report ⟨.assemblyNotFound name, none⟩) (key name)
        none).unreadCount_le
      exact ⟨Nat.lt_of_le_of_lt hle hu, rfl⟩
    | some path =>
      dsimp only
      cases read path with
      | error e => exact ⟨Nat.lt_trans (unreadCount_remember_lt he hp none) hu, rfl⟩
      | ok a =>
        have htaken : ((u.noteRead path).takeIn (key name) a).2.unreadCount < depth :=
          Nat.lt_of_lt_of_le (unreadCount_remember_lt he hp _) (Nat.le_of_lt_succ hu)
        have hbound := agree_bindAssembly (lasting_unreadCount depth) h ⟨⟨u.context, u.next⟩, a⟩
        obtain ⟨hv, hrun⟩ := agree_map hbound some _ htaken
        exact ⟨Nat.lt_succ_of_lt hv, hrun⟩

/-- A demand that is unrolled often enough does not depend on what stands at the end. -/
theorem agree_iterate (read : Reader) (bottom bottom' : AssemblyResolver) (depth : Nat)
    (name : AssemblyName) : Agree (·.unreadCount < depth) ((demand read)^[depth] bottom name)
      ((demand read)^[depth] bottom' name) := by
  induction depth generalizing name with
  | zero => exact fun u hu => absurd hu (Nat.not_lt_zero _)
  | succ depth ih =>
    rw [Function.iterate_succ_apply', Function.iterate_succ_apply']
    exact agree_demand ih name

/-- Demands that may be nested as deep as there are paths left to read are not cut short. -/
theorem agree_resolveAssemblyWithin (read : Reader) (bottom : AssemblyResolver) (depth : Nat)
    (name : AssemblyName) : Agree (·.unreadCount < depth + 1)
      ((demand read)^[depth + 1] bottom name) (resolveAssemblyWithin read depth name) := by
  induction depth generalizing name with
  | zero =>
    intro u hu
    -- nothing is left to read, so a name that is not remembered leads to no path
    have habsent : u.remembered? (key name) = none → u.referencePath? name = none := fun he =>
      Option.eq_none_iff_forall_ne_some.2 fun p hp =>
        absurd (unreadCount_pos hp he) (Nat.not_lt.2 (Nat.le_of_lt_succ hu))
    obtain ⟨hv, -⟩ := agree_iterate read bottom bottom 1 name u hu
    refine ⟨hv, ?_⟩
    rw [Function.iterate_one]
    unfold demand resolveAssemblyWithin
    simp only [id_eq, StateT.run_bind, StateT.run_get, pure_bind]
    cases he : u.remembered? (key name) with
    | some entry => rfl
    | none =>
      rw [habsent he]
      rfl
  | succ depth ih =>
    rw [Function.iterate_succ_apply', resolveAssemblyWithin_succ]
    exact agree_demand ih name

/-- How often a demand is unrolled does not matter as long as it is often enough. -/
theorem iterate_demand_run {u : Universe} {m n : Nat} (hm : u.unreadCount < m)
    (hn : u.unreadCount < n) (name : AssemblyName) :
    ((demand read)^[m] bottom name).run u = ((demand read)^[n] bottom' name).run u := by
  have hsplit (k : Nat) (hk : u.unreadCount < k) (resolve : AssemblyResolver) :
      (demand read)^[k] resolve =
        (demand read)^[u.unreadCount + 1] ((demand read)^[k - (u.unreadCount + 1)] resolve) := by
    rw [← Function.iterate_add_apply, Nat.add_sub_cancel' hk]
  rw [hsplit m hm, hsplit n hn]
  exact (run_of_agree (agree_iterate read _ _ _ name) (Nat.lt_succ_self _)).symm

/-- Demands come to an end: unrolled more often than there are paths left to read, they give what
`resolveAssembly` gives. -/
theorem agree_resolveAssembly (read : Reader) (bottom : AssemblyResolver) (depth : Nat)
    (name : AssemblyName) : Agree (·.unreadCount < depth) ((demand read)^[depth] bottom name)
      (resolveAssembly read name) := by
  intro u hu
  have hlength : u.unreadCount < u.referencePaths.length + 1 :=
    Nat.lt_succ_of_le List.countP_le_length
  have hwithin := run_of_agree (agree_resolveAssemblyWithin read bottom _ name) hlength
  refine ⟨(agree_iterate read bottom bottom depth name u hu).1, ?_⟩
  exact hwithin.trans (iterate_demand_run hlength hu name)

/-- `resolveAssembly` is the recursion without a bound. -/
theorem resolveAssembly_eq_demand (read : Reader) :
    resolveAssembly read = demand read (resolveAssembly read) := by
  funext name u
  let bottom : AssemblyResolver := fun _ => pure none
  have hlt := Nat.lt_succ_self u.unreadCount
  have hunrolled : (resolveAssembly read name).run u =
      ((demand read)^[u.unreadCount + 1] bottom name).run u :=
    run_of_agree (agree_resolveAssembly read bottom _ name) hlt
  have hdemand : (demand read (resolveAssembly read) name).run u =
      (demand read ((demand read)^[u.unreadCount] bottom) name).run u :=
    run_of_agree (agree_demand (agree_resolveAssembly read bottom _) name) hlt
  rw [Function.iterate_succ_apply'] at hunrolled
  exact hunrolled.trans hdemand.symm

/-- Loads an assembly as `loadPrimary` does; `resolve` finds those that its references name. -/
def loadPrimaryBy (read : Reader) (resolve : AssemblyResolver) (path : Path) :
    UniverseM (Except LoadError Loaded) := do
  modify (noteRead path)
  match read path with
  | .error e => pure (.error e)
  | .ok a =>
    let l ← modifyGet (takeIn (key a.name) a)
    modify fun u => { u with primaries := u.primaries ++ [l.id] }.collect
    .ok <$> bindAssembly resolve l

theorem agree_loadPrimary (read : Reader) (bottom : AssemblyResolver) (depth : Nat) (path : Path) :
    Agree (·.unreadCount < depth) (loadPrimaryBy read ((demand read)^[depth] bottom) path)
      (loadPrimary read path) := by
  refine inStep_bind (agree_modify fun u hu => hu) fun _ => ?_
  cases read path with
  | error e => exact inStep_pure _
  | ok a =>
    have htaken : Agree (·.unreadCount < depth) (modifyGet (takeIn (key a.name) a))
        (modifyGet (takeIn (key a.name) a)) :=
      inStep_modifyGet (fun u hu => Nat.lt_of_le_of_lt
        (recalls_remember u (key a.name) (some ⟨u.context, u.next⟩)).unreadCount_le hu) fun _ => rfl
    refine inStep_bind htaken fun l => inStep_bind (agree_modify fun u hu => hu) fun _ => ?_
    exact agree_map (agree_bindAssembly (lasting_unreadCount depth)
      (agree_resolveAssembly read bottom depth) l) _

theorem agree_resolveType (read : Reader) (bottom : AssemblyResolver) (depth : Nat) (t : TypeRef) :
    Agree (·.unreadCount < depth) (resolveTypeBy ((demand read)^[depth] bottom) t)
      (resolveType read t) :=
  agree_resolveTypeBy (agree_resolveAssembly read bottom depth) t

end Unrolling

end Universe

end ApiEvolution
