import ApiEvolution.Proofs.Surface.Passage
import ApiEvolution.Proofs.Surface.Traversal
import ApiEvolution.Proofs.Universe.Agreement

/-!
# Every failure is reported once

A reference that leads nowhere is marked and reported. A universe that counts both has as many
reports as marks, but for the assemblies whose references are being bound: what has been marked
there is entered only when all of their references are bound. A `Tally` leaves these pending
assemblies out and says how many reports there are besides. Binding one reference adds to the
reports what it marks (`counts_bindReference`), and so does binding all references of an assembly,
which settles it (`Tally.bindAssembly`); demands add nothing that is not marked
(`steady_resolveAssembly`).
-/

namespace ApiEvolution

/-! ## Marks and reports -/

/-- The reference was looked up in vain. -/
def TypeRef.isUnresolved (t : TypeRef) : Bool :=
  match t.binding with
  | .unresolved => true
  | _ => false

/-- How many of the references were looked up in vain. -/
def marks (ts : List TypeRef) : Nat :=
  ts.countP TypeRef.isUnresolved

/-- The report of a reference that was looked up in vain. -/
def Diagnostic.isFailure (d : Diagnostic) : Bool :=
  match d.finding with
  | .typeUnresolved _ => true
  | _ => false

@[simp] theorem marks_nil : marks [] = 0 := rfl

theorem marks_cons (t : TypeRef) (ts : List TypeRef) : marks (t :: ts) = marks [t] + marks ts := by
  rw [marks, marks, marks, ← List.countP_append, List.singleton_append]

theorem marks_append (ts us : List TypeRef) : marks (ts ++ us) = marks ts + marks us :=
  List.countP_append

/-- What has not been looked up is not marked. -/
theorem marks_of_detached {t : TypeRef} (h : t.detached = t) : marks [t] = 0 := by
  obtain ⟨space, name, scope, binding⟩ := t
  cases binding with
  | unresolved => simp [TypeRef.detached, Binding.detached] at h
  | _ => rfl

theorem marks_refs (a : Assembly) : marks (Carrier.refs a) = marks a.references := by
  have hrefs : Carrier.refs a = a.modules.flatMap fun m =>
      m.types.flatMap TypeDefinition.refs ++ m.exported := by
    refine List.flatMap_congr fun m _ => ?_
    rw [m.refs_eq, TypeDefinition.refsOf_eq]
  have hreferences : a.references = (a.modules.flatMap fun m =>
      m.types.flatMap TypeDefinition.refs) ++ a.modules.flatMap (·.exported) := by
    rw [Assembly.references, Assembly.typeRefs, TypeDefinition.refsOf_eq, Assembly.topLevel,
      List.flatMap_assoc, Assembly.exported]
  rw [hrefs, hreferences]
  exact ((List.flatMap_append_perm a.modules _ _).countP_eq _).symm

/-- Where keys are distinct, no entry beside this one has its key. -/
theorem exists_append_of_mem_of_nodup {α κ : Type} {key : α → κ} {xs : List α}
    (hnodup : (xs.map key).Nodup) {x : α} (hx : x ∈ xs) :
    ∃ as bs, xs = as ++ x :: bs ∧ (∀ y ∈ as, key y ≠ key x) ∧ ∀ y ∈ bs, key y ≠ key x := by
  obtain ⟨as, bs, rfl⟩ := List.append_of_mem hx
  rw [List.map_append, List.map_cons] at hnodup
  obtain ⟨-, hbs, has⟩ := List.nodup_append.1 hnodup
  refine ⟨as, bs, rfl, fun y hy => ?_, fun y hy he => ?_⟩
  · exact has _ (List.mem_map_of_mem hy) _ List.mem_cons_self
  · exact (List.nodup_cons.1 hbs).1 (he ▸ List.mem_map_of_mem hy)

/-- A sum in which one summand has become greater. -/
theorem sum_map_eq_add {α κ : Type} {key : α → κ} {xs : List α} (hnodup : (xs.map key).Nodup)
    {k : κ} (hk : k ∈ xs.map key) {f g : α → Nat} {c : Nat}
    (hf : ∀ x ∈ xs, key x = k → f x = c + g x) (hothers : ∀ x ∈ xs, key x ≠ k → f x = g x) :
    (xs.map f).sum = c + (xs.map g).sum := by
  obtain ⟨x, hx, rfl⟩ := List.mem_map.1 hk
  have hfx := hf x hx rfl
  obtain ⟨as, bs, rfl, has, hbs⟩ := exists_append_of_mem_of_nodup hnodup hx
  have hbefore : as.map f = as.map g := List.map_congr_left fun y hy =>
    hothers y (List.mem_append_left _ hy) (has y hy)
  have hbehind : bs.map f = bs.map g := List.map_congr_left fun y hy =>
    hothers y (List.mem_append_right _ (List.mem_cons_of_mem x hy)) (hbs y hy)
  simp only [List.map_append, List.map_cons, List.sum_append, List.sum_cons, hbefore, hbehind, hfx]
  omega

namespace Universe

/-- How often a reference was reported that was looked up in vain. -/
def failures (u : Universe) : Nat :=
  u.diagnostics.countP Diagnostic.isFailure

/-- How many references are marked in the assemblies that are not pending. -/
def settledMarks (pending : List AssemblyId) (u : Universe) : Nat :=
  (u.assemblies.map fun l => if l.id ∈ pending then 0 else marks l.assembly.references).sum

/-! ## The tally -/

/-- Of the reported references, all but `n` are marked in an assembly that is not pending. Everything
that is kept has a name and a number of its own. -/
structure Tally (paths : List Path) (pending : List AssemblyId) (n : Nat) (u : Universe) : Prop where
  paths : u.referencePaths = paths
  names : (u.names.map (·.1)).Nodup
  ids : (u.assemblies.map (·.id)).Nodup
  numbered : ∀ l ∈ u.assemblies, l.id.number < u.next
  known : ∀ id ∈ pending, id ∈ u.assemblies.map (·.id)
  counted : u.failures = n + u.settledMarks pending

namespace Tally

variable {paths : List Path} {pending : List AssemblyId} {n : Nat} {u : Universe}

/-- A report on a reference counts. -/
theorem report (h : Tally paths pending n u) (name : String) (origin : Option String) :
    Tally paths pending (n + 1) (u.report ⟨.typeUnresolved name, origin⟩) := by
  refine ⟨h.paths, h.names, h.ids, h.numbered, h.known, ?_⟩
  have hmore : (u.report ⟨.typeUnresolved name, origin⟩).failures = u.failures + 1 := by
    rw [failures, Universe.report, List.countP_append]
    rfl
  have hsame : (u.report ⟨.typeUnresolved name, origin⟩).settledMarks pending =
      u.settledMarks pending := rfl
  rw [hmore, hsame, h.counted]
  omega

/-- A name is remembered, and something else may be reported or read meanwhile. -/
theorem remember (h : Tally paths pending n u) (k : String) (entry : Option AssemblyId)
    {ds : List Diagnostic} (hds : ∀ d ∈ ds, d.isFailure = false) (reads : List Path) :
    Tally paths pending n
      ({ u with diagnostics := u.diagnostics ++ ds, reads := reads }.remember k entry) := by
  refine ⟨h.paths, ?_, h.ids, h.numbered, h.known, ?_⟩
  · have hnames : ((u.names.filter (·.1 != k)).map (·.1)).Nodup :=
      h.names.sublist (List.filter_sublist.map _)
    refine List.nodup_cons.2 ⟨fun hk => ?_, hnames⟩
    obtain ⟨e, he, hkey⟩ := List.mem_map.1 hk
    have hne := (List.mem_filter.1 he).2
    simp [hkey] at hne
  · have hnone : ds.countP Diagnostic.isFailure = 0 :=
      List.countP_eq_zero.2 fun d hd => by simp [hds d hd]
    show (u.diagnostics ++ ds).countP Diagnostic.isFailure = n + u.settledMarks pending
    rw [List.countP_append, hnone, ← h.counted]
    rfl

/-- An assembly that is taken in is pending. -/
theorem takeIn (h : Tally paths pending n u) (k : String) (a : Assembly) (reads : List Path) :
    Tally paths (⟨u.context, u.next⟩ :: pending) n ({ u with reads := reads }.takeIn k a).2 := by
  let id : AssemblyId := ⟨u.context, u.next⟩
  have hnew : ∀ l ∈ u.assemblies, l.id ≠ id := fun l hl he =>
    Nat.ne_of_lt (h.numbered l hl) (congrArg AssemblyId.number he)
  have hremembered := h.remember k (some id) (List.forall_mem_nil _) reads
  refine ⟨h.paths, hremembered.names, ?_, ?_, ?_, ?_⟩
  · show ((u.assemblies ++ [(⟨id, a⟩ : Loaded)]).map (·.id)).Nodup
    rw [List.map_append, List.map_singleton]
    refine List.nodup_append.2 ⟨h.ids, List.nodup_singleton id, ?_⟩
    rintro _ hmem _ hid rfl
    obtain ⟨l, hl, rfl⟩ := List.mem_map.1 hmem
    exact hnew l hl (List.mem_singleton.1 hid)
  · intro l hl
    rcases List.mem_append.1 hl with hl | hl
    · exact Nat.lt_succ_of_lt (h.numbered l hl)
    · rw [List.mem_singleton.1 hl]
      exact Nat.lt_succ_self u.next
  · intro id' hid'
    show id' ∈ (u.assemblies ++ [(⟨id, a⟩ : Loaded)]).map (·.id)
    rw [List.map_append]
    rcases List.mem_cons.1 hid' with rfl | hid'
    · exact List.mem_append_right _ (List.mem_singleton_self id)
    · exact List.mem_append_left _ (h.known id' hid')
  · show u.failures = n + ((u.assemblies ++ [(⟨id, a⟩ : Loaded)]).map fun l =>
      if l.id ∈ id :: pending then 0 else marks l.assembly.references).sum
    have hold : (u.assemblies.map fun l =>
        if l.id ∈ id :: pending then 0 else marks l.assembly.references) =
        u.assemblies.map fun l => if l.id ∈ pending then 0 else marks l.assembly.references := by
      refine List.map_congr_left fun l hl => ?_
      simp only [List.mem_cons, hnew l hl, false_or]
    rw [List.map_append, List.sum_append, hold, List.map_singleton, if_pos List.mem_cons_self,
      h.counted]
    rfl

/-- Nothing but the assemblies changes when one of them is replaced. -/
theorem of_update (h : Tally paths pending n u) {id : AssemblyId} {f : Assembly → Assembly}
    {pending' : List AssemblyId} {n' : Nat} (hpending : pending' ⊆ pending)
    (hcounted : n + u.settledMarks pending = n' + (u.update id f).settledMarks pending') :
    Tally paths pending' n' (u.update id f) := by
  have hids : (u.update id f).assemblies.map (·.id) = u.assemblies.map (·.id) := by
    refine (List.map_map ..).trans (List.map_congr_left fun l _ => ?_)
    rw [Function.comp_apply]
    split <;> rfl
  refine ⟨h.paths, h.names, hids ▸ h.ids, fun l hl => ?_, fun id' hid' => ?_, ?_⟩
  · have hmem : l.id ∈ u.assemblies.map (·.id) := hids ▸ List.mem_map_of_mem hl
    obtain ⟨l', hl', he⟩ := List.mem_map.1 hmem
    rw [← he]
    exact h.numbered l' hl'
  · rw [hids]
    exact h.known id' (hpending hid')
  · rw [← hcounted, ← h.counted]
    rfl

theorem settledMarks_update (u : Universe) (id : AssemblyId) (f : Assembly → Assembly)
    (pending : List AssemblyId) : (u.update id f).settledMarks pending =
      (u.assemblies.map fun l => if l.id ∈ pending then 0 else
        marks (if l.id = id then f l.assembly else l.assembly).references).sum := by
  rw [settledMarks, Universe.update, List.map_map]
  congr 1
  refine List.map_congr_left fun l _ => ?_
  simp only [Function.comp_apply, beq_iff_eq]
  split <;> rfl

/-- Changes to a pending assembly do not count. -/
theorem update (h : Tally paths pending n u) {id : AssemblyId} (hid : id ∈ pending)
    (f : Assembly → Assembly) : Tally paths pending n (u.update id f) := by
  refine h.of_update (List.Subset.refl pending) ?_
  rw [settledMarks_update, settledMarks]
  congr 2
  refine List.map_congr_left fun l _ => ?_
  by_cases hl : l.id ∈ pending
  · rw [if_pos hl, if_pos hl]
  · have hne : l.id ≠ id := fun he => hl (he ▸ hid)
    rw [if_neg hl, if_neg hl, if_neg hne]

/-- An assembly that is no longer pending brings what is marked in it. -/
theorem settle {id : AssemblyId} {b : Assembly}
    (h : Tally paths (id :: pending) (n + marks b.references) u) (hid : id ∉ pending) :
    Tally paths pending n (u.update id fun _ => b) := by
  refine h.of_update (List.subset_cons_self id pending) ?_
  have hsum : (u.update id fun _ => b).settledMarks pending =
      marks b.references + u.settledMarks (id :: pending) := by
    rw [settledMarks_update]
    refine sum_map_eq_add h.ids (h.known id List.mem_cons_self) (fun l _ he => ?_) fun l _ hne => ?_
    · rw [if_neg (he ▸ hid), if_pos he, if_pos (he ▸ List.mem_cons_self), Nat.add_zero]
    · simp only [List.mem_cons, hne, false_or, if_false]
  rw [hsum]
  omega

end Tally

/-! ## Steps that count what they mark -/

section Steps

variable {α β : Type}

/-- Starting with `c` reports that are not marked in a settled assembly, the step ends with as many
as its value weighs. -/
def CountsFrom (paths : List Path) (pending : List AssemblyId) (c : Nat) (x : UniverseM α)
    (weight : α → Nat) : Prop :=
  ∀ n u, Tally paths pending (n + c) u → Tally paths pending (n + weight (x.run u).1) (x.run u).2

/-- The step reports as often as its value weighs. -/
abbrev Counts (paths : List Path) (pending : List AssemblyId) (x : UniverseM α)
    (weight : α → Nat) : Prop :=
  CountsFrom paths pending 0 x weight

/-- Nothing is reported that is not marked in a settled assembly. -/
def Steady (paths : List Path) (resolve : AssemblyResolver) : Prop :=
  ∀ pending n name, Agree (Tally paths pending n) (resolve name) (resolve name)

variable {paths : List Path} {pending : List AssemblyId} {c : Nat} {x : UniverseM α}
  {weight : α → Nat} {weight' : β → Nat}

namespace CountsFrom

theorem pure {a : α} (h : weight a = c) : CountsFrom paths pending c (pure a) weight := by
  intro n u hu
  rw [← h] at hu
  exact hu

theorem bind {k : α → UniverseM β} (hx : CountsFrom paths pending c x weight)
    (hk : ∀ a, CountsFrom paths pending (weight a) (k a) weight') :
    CountsFrom paths pending c (x >>= k) weight' :=
  fun n u hu => hk _ n _ (hx n u hu)

/-- What has been reported before stays reported. -/
theorem shift (hx : Counts paths pending x weight) (c : Nat) :
    CountsFrom paths pending c x fun a => c + weight a := by
  intro n u hu
  rw [← Nat.add_assoc]
  exact hx (n + c) u hu

theorem modify {f : Universe → Universe}
    (hf : ∀ n u, Tally paths pending n u → Tally paths pending n (f u)) (c : Nat) :
    CountsFrom paths pending c (modify f) fun _ => c :=
  fun n u hu => hf (n + c) u hu

/-- The references of a list are gone through one after the other. -/
theorem mapM {f : TypeRef → UniverseM TypeRef} {ts : List TypeRef}
    (h : ∀ t ∈ ts, Counts paths pending (f t) fun t => marks [t]) :
    Counts paths pending (ts.mapM f) marks := by
  induction ts with
  | nil => exact .pure rfl
  | cons t ts ih =>
    rw [List.mapM_cons]
    refine (h t List.mem_cons_self).bind fun t' => ?_
    refine (shift (ih fun r hr => h r (List.mem_cons_of_mem t hr)) _).bind fun ts' => ?_
    exact .pure (marks_cons t' ts')

/-- A traversal counts what its references do. -/
theorem visits {f : TypeRef → UniverseM TypeRef} {ts : List TypeRef} {refs : α → List TypeRef}
    (hx : Visits f x ts refs) (h : Counts paths pending (ts.mapM f) marks) :
    Counts paths pending x fun a => marks (refs a) := by
  rw [← hx.map_eq] at h
  exact h

end CountsFrom

/-! ## Binding -/

variable {resolve : AssemblyResolver} (hresolve : Steady paths resolve)
include hresolve

/-- A reference is reported if it is marked. -/
theorem counts_bindReference {t : TypeRef} (ht : t.detached = t) (origin : AssemblyName) :
    Counts paths pending (bindReference resolve origin t) fun t => marks [t] := by
  intro n u hu
  cases hb : t.isBound with
  | true =>
    rw [bindReference_run_bound hb]
    show Tally paths pending (n + marks [t]) u
    rw [marks_of_detached ht]
    exact hu
  | false =>
    have hresolved := (agree_resolveTypeBy (hresolve pending n) t u hu).1
    rw [bindReference_run_unbound hb]
    generalize (resolveTypeBy resolve t).run u = out at hresolved
    obtain ⟨found, v⟩ := out
    cases found with
    | some d => exact hresolved
    | none => exact hresolved.report _ _

variable {id : AssemblyId}

theorem counts_bindExported (hid : id ∈ pending) (origin : AssemblyName) (module position : Nat)
    {ts : List TypeRef} (hts : ∀ t ∈ ts, t.detached = t) :
    Counts paths pending (bindExported (bindReference resolve origin) id module position ts)
      marks := by
  induction ts generalizing position with
  | nil => exact .pure rfl
  | cons t ts ih =>
    obtain ⟨ht, hrest⟩ := List.forall_mem_cons.1 hts
    unfold bindExported
    refine (counts_bindReference hresolve ht origin).bind fun t' => ?_
    refine (CountsFrom.modify (fun n u hu => hu.update hid _) _).bind fun _ => ?_
    refine (CountsFrom.shift (ih (position + 1) hrest) _).bind fun ts' => ?_
    exact .pure (marks_cons t' ts')

theorem counts_bindModules (hid : id ∈ pending) (origin : AssemblyName) (module : Nat)
    {ms : List Module} (hms : ∀ m ∈ ms, ∀ t ∈ Carrier.refs m, t.detached = t) :
    Counts paths pending (bindModules (bindReference resolve origin) id module ms)
      fun ms => marks (Carrier.refs ms) := by
  induction ms generalizing module with
  | nil => exact .pure rfl
  | cons m ms ih =>
    obtain ⟨hm, hrest⟩ := List.forall_mem_cons.1 hms
    rw [m.refs_eq] at hm
    have htypes : Counts paths pending
        (TypeDefinition.traverseAll (bindReference resolve origin) m.types)
        fun ts => marks (TypeDefinition.refsOf ts) :=
      .visits (TypeDefinition.visits_traverseAll m.types) (.mapM fun t ht =>
        counts_bindReference hresolve (hm t (List.mem_append_left _ ht)) origin)
    have hexported := counts_bindExported hresolve hid origin module 0 fun t ht =>
      hm t (List.mem_append_right _ ht)
    unfold bindModules
    refine htypes.bind fun types => (CountsFrom.shift hexported _).bind fun exported => ?_
    refine (CountsFrom.shift (ih (module + 1) hrest) _).bind fun ms' => .pure ?_
    have hcons : Carrier.refs ({ m with types, exported } :: ms') =
        Carrier.refs ({ m with types, exported } : Module) ++ Carrier.refs ms' := rfl
    rw [hcons, Module.refs_eq, marks_append, marks_append]

/-- When all references of an assembly are bound, it is settled. -/
theorem Tally.bindAssembly {n : Nat} {u : Universe} {a : Assembly}
    (h : Tally paths (id :: pending) n u) (hid : id ∉ pending)
    (ha : ∀ t ∈ a.references, t.detached = t) :
    Tally paths pending n ((Universe.bindAssembly resolve ⟨id, a⟩).run u).2 := by
  have hrefs : ∀ m ∈ a.modules, ∀ t ∈ Carrier.refs m, t.detached = t := fun m hm t ht =>
    ha t (Assembly.mem_references.2 ⟨m, hm, m.refs_eq ▸ ht⟩)
  have hbound := counts_bindModules hresolve List.mem_cons_self a.name 0 hrefs n u h
  rw [bindAssembly_run_modules (l := ⟨id, a⟩) rfl]
  refine settle ?_ hid
  rw [← marks_refs]
  exact hbound

end Steps

/-! ## Demands -/

variable {paths : List Path} {read : Reader}

/-- Finding an assembly reports what is marked in the assemblies that are read for it. -/
theorem steady_resolveAssemblyWithin (hread : ∀ p ∈ paths, ∀ a, read p = .ok a → a.detached = a)
    (depth : Nat) : Steady paths (resolveAssemblyWithin read depth) := by
  induction depth using Nat.strongRecOn with
  | ind depth ih =>
    intro pending n name u hu
    refine ⟨?_, rfl⟩
    cases he : u.remembered? (key name) with
    | some entry =>
      rw [resolveAssemblyWithin_run_remembered he]
      exact hu
    | none =>
      cases hp : u.referencePath? name with
      | none =>
        rw [resolveAssemblyWithin_run_absent he hp]
        exact hu.remember (key name) none (List.forall_mem_singleton.2 rfl) u.reads
      | some path =>
        cases depth with
        | zero =>
          rw [resolveAssemblyWithin_run_exhausted he hp]
          exact hu
        | succ depth =>
          cases hr : read path with
          | error e =>
            rw [resolveAssemblyWithin_run_unreadable he hp hr]
            exact hu.remember (key name) none (List.forall_mem_singleton.2 rfl) (u.reads ++ [path])
          | ok a =>
            have hpath : path ∈ paths := hu.paths ▸ List.mem_of_find?_eq_some hp
            have hdetached : ∀ t ∈ a.references, t.detached = t := fun t ht =>
              Assembly.detached_of_mem_references (hread path hpath a hr) ht
            have hnew : (⟨u.context, u.next⟩ : AssemblyId) ∉ pending := by
              intro hmem
              obtain ⟨l, hl, hid⟩ := List.mem_map.1 (hu.known _ hmem)
              have hlt := hu.numbered l hl
              rw [hid] at hlt
              exact Nat.lt_irrefl _ hlt
            have htaken := hu.takeIn (key name) a (u.reads ++ [path])
            rw [resolveAssemblyWithin_run_read he hp hr rfl]
            exact htaken.bindAssembly (ih depth (Nat.lt_succ_self depth)) hnew hdetached

theorem steady_resolveAssembly (hread : ∀ p ∈ paths, ∀ a, read p = .ok a → a.detached = a) :
    Steady paths (resolveAssembly read) :=
  fun pending n name u hu =>
    steady_resolveAssemblyWithin hread u.referencePaths.length pending n name u hu

namespace Tally

variable {pending : List AssemblyId} {n : Nat} {u : Universe}

/-- Every name is remembered once. -/
theorem remembered? (h : Tally paths pending n u) {k : String} {entry : Option AssemblyId}
    (hk : (k, entry) ∈ u.names) : u.remembered? k = some entry := by
  obtain ⟨as, bs, hnames, has, -⟩ := exists_append_of_mem_of_nodup h.names hk
  rw [Universe.remembered?, List.lookup_eq_some_iff]
  exact ⟨as, bs, hnames, fun e he => bne_iff_ne.2 (has e he).symm⟩

/-- Every assembly is kept once. -/
theorem assembly? (h : Tally paths pending n u) {l : Loaded} (hl : l ∈ u.assemblies) :
    u.assembly? l.id = some l := by
  obtain ⟨as, bs, hassemblies, has, -⟩ := exists_append_of_mem_of_nodup h.ids hl
  rw [Universe.assembly?, List.find?_eq_some_iff_append]
  exact ⟨beq_self_eq_true _, as, bs, hassemblies, fun l' hl' => by simp [has l' hl']⟩

end Tally

/-- Where no assembly is pending, there are as many reports as marks. -/
theorem Tally.marks_eq {u : Universe} (h : Tally paths [] 0 u) :
    u.failures = marks (u.assemblies.flatMap (·.assembly.references)) := by
  have hsum : marks (u.assemblies.flatMap (·.assembly.references)) =
      (u.assemblies.map fun l => marks l.assembly.references).sum := List.countP_flatMap
  rw [h.counted, hsum, Nat.zero_add, settledMarks]
  simp only [List.not_mem_nil, if_false]

end Universe

end ApiEvolution
