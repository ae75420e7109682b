import ApiEvolution.Universe.Load

/-!
# One step at a time

What the functions of a universe do from a given state, case by case.
-/

namespace ApiEvolution

namespace Universe

/-! ## Resolution -/

theorem assembly?_id {u : Universe} {id : AssemblyId} {l : Loaded}
    (h : u.assembly? id = some l) : l.id = id := by
  simpa using List.find?_some h

/-- What a reference is bound to stands in an assembly that is kept. -/
theorem exists_of_bound? {u : Universe} {binding : Binding} {d : Definition}
    (h : u.bound? binding = some d) : (∃ descriptor, binding = .resolved d.id descriptor) ∧
      ∃ l ∈ u.assemblies, l.id = d.id.assembly ∧
        l.assembly.definitionAt? d.id.position = some d.type := by
  cases binding with
  | resolved id descriptor =>
    obtain ⟨t, ht, rfl⟩ := Option.map_eq_some_iff.1 h
    obtain ⟨l, hl, hat⟩ := Option.bind_eq_some_iff.1 ht
    exact ⟨⟨descriptor, rfl⟩, l, List.mem_of_find?_eq_some hl, assembly?_id hl, hat⟩
  | _ => cases h

section Resolution

variable {resolve : AssemblyResolver} {follow : TypeRef → UniverseM (Option Definition)}

theorem resolveStep_run (space name : String) (scope : Scope) (binding : Binding) (u : Universe) :
    (resolveStep resolve follow (.mk space name scope binding)).run u =
      match u.bound? binding with
      | some d => (some d, u)
      | none => (resolveScope resolve follow space name scope).run u := by
  simp only [resolveStep, StateT.run_bind, StateT.run_get, pure_bind]
  cases u.bound? binding <;> rfl

theorem resolveScope_assembly_run (space name : String) (a : AssemblyName) (u : Universe) :
    (resolveScope resolve follow space name (.assembly a)).run u =
      match (resolve a).run u with
      | (some l, v) => (resolveInAssembly follow space name l).run v
      | (none, v) => (none, v) := by
  simp only [resolveScope, StateT.run_bind]
  obtain ⟨found, v⟩ := (resolve a).run u
  cases found <;> rfl

theorem resolveScope_nested_run (space name : String) (d : TypeRef) (u : Universe) :
    (resolveScope resolve follow space name (.nested d)).run u =
      match (resolveStep resolve follow d).run u with
      | (some e, v) => (e.nested? space name, v)
      | (none, v) => (none, v) := by
  simp only [resolveScope, StateT.run_bind]
  obtain ⟨found, v⟩ := (resolveStep resolve follow d).run u
  cases found <;> rfl

/-! ## Binding -/

theorem bindReference_run_bound {t : TypeRef} (ht : t.isBound) (origin : AssemblyName)
    (u : Universe) : (bindReference resolve origin t).run u = (t, u) := by
  rw [bindReference, if_pos ht]
  rfl

theorem bindReference_run_unbound {t : TypeRef} (ht : t.isBound = false) (origin : AssemblyName)
    (u : Universe) : (bindReference resolve origin t).run u =
      match (resolveTypeBy resolve t).run u with
      | (some d, v) => (t.withBinding (.resolved d.id d.type.descriptor), v)
      | (none, v) => (t.withBinding .unresolved,
          v.report ⟨.typeUnresolved t.fullName, some origin.name⟩) := by
  simp only [bindReference, ht, Bool.false_eq_true, if_false, StateT.run_bind]
  obtain ⟨res, v⟩ := (resolveTypeBy resolve t).run u
  cases res <;> rfl

theorem getElem?_of_drop_eq_cons {α : Type} {xs ys : List α} {n : Nat} {x : α}
    (h : xs.drop n = x :: ys) : xs[n]? = some x ∧ xs.drop (n + 1) = ys := by
  have hhead := congrArg (·[0]?) h
  have htail := congrArg List.tail h
  simpa using And.intro hhead htail

/-- An exported type is bound, and its binding is entered, before the others are. -/
theorem bindExported_cons (bind : TypeRef → UniverseM TypeRef) (id : AssemblyId)
    (module position : Nat) (t : TypeRef) (ts : List TypeRef) :
    bindExported bind id module position (t :: ts) =
      (do let t ← bind t
          modify (setExported id module position t)
          return t) >>= fun t => do
            return t :: (← bindExported bind id module (position + 1) ts) := by
  rw [bindExported]
  simp only [bind_assoc, pure_bind]

theorem bindExported_run_cons {bind : TypeRef → UniverseM TypeRef} {id : AssemblyId}
    {module position : Nat} {t t' : TypeRef} {ts ts' : List TypeRef} {u v x : Universe}
    (ht : (bind t).run u = (t', v))
    (hts : (bindExported bind id module (position + 1) ts).run (setExported id module position t' v) =
      (ts', x)) : (bindExported bind id module position (t :: ts)).run u = (t' :: ts', x) := by
  have hrest : (do return t' :: (← bindExported bind id module (position + 1) ts) : UniverseM _).run
      (setExported id module position t' v) = (t' :: ts', x) := by
    rw [StateT.run_bind, hts]
    rfl
  rw [bindExported, StateT.run_bind, ht]
  exact hrest

/-- The types of a module are bound before its exported types, and both before the other modules. -/
theorem bindModules_run_cons {bind : TypeRef → UniverseM TypeRef} {id : AssemblyId} {module : Nat}
    {m : Module} {ms ms' : List Module} {types : List TypeDefinition} {exported : List TypeRef}
    {u v x y : Universe} (htypes : (TypeDefinition.traverseAll bind m.types).run u = (types, v))
    (hexported : (bindExported bind id module 0 m.exported).run v = (exported, x))
    (hms : (bindModules bind id (module + 1) ms).run x = (ms', y)) :
    (bindModules bind id module (m :: ms)).run u = ({ m with types, exported } :: ms', y) := by
  have hlast : (do return { m with types, exported } :: (← bindModules bind id (module + 1) ms) :
      UniverseM _).run x = ({ m with types, exported } :: ms', y) := by
    rw [StateT.run_bind, hms]
    rfl
  have hrest : (do
      let exported ← bindExported bind id module 0 m.exported
      return { m with types, exported } :: (← bindModules bind id (module + 1) ms) :
      UniverseM _).run v = ({ m with types, exported } :: ms', y) := by
    rw [StateT.run_bind, hexported]
    exact hlast
  rw [bindModules, StateT.run_bind, htypes]
  exact hrest

theorem bindAssembly_run_modules {l : Loaded} {ms : List Module} {u v : Universe}
    (hms : (bindModules (bindReference resolve l.assembly.name) l.id 0 l.assembly.modules).run u =
      (ms, v)) : (bindAssembly resolve l).run u = (⟨l.id, { l.assembly with modules := ms }⟩,
        v.update l.id fun _ => { l.assembly with modules := ms }) := by
  rw [bindAssembly, StateT.run_bind, hms]
  rfl

end Resolution

/-! ## Assemblies on demand -/

section Assemblies

variable {read : Reader} {depth : Nat} {name : AssemblyName} {u : Universe}

theorem resolveAssemblyWithin_run_remembered {entry : Option AssemblyId}
    (he : u.remembered? (key name) = some entry) :
    (resolveAssemblyWithin read depth name).run u = (entry.bind u.assembly?, u) := by
  unfold resolveAssemblyWithin
  simp only [StateT.run_bind, StateT.run_get, pure_bind, he]
  rfl

theorem resolveAssemblyWithin_run_absent (he : u.remembered? (key name) = none)
    (hp : u.referencePath? name = none) : (resolveAssemblyWithin read depth name).run u =
      (none, (u.report ⟨.assemblyNotFound name, none⟩).remember (key name) none) := by
  unfold resolveAssemblyWithin
  simp only [StateT.run_bind, StateT.run_get, pure_bind, he, hp]
  rfl

theorem resolveAssemblyWithin_run_unreadable (he : u.remembered? (key name) = none) {path : Path}
    (hp : u.referencePath? name = some path) {e : LoadError} (hr : read path = .error e) :
    (resolveAssemblyWithin read (depth + 1) name).run u =
      (none, ((u.noteRead path).report ⟨.assemblyUnreadable name path e, none⟩).remember
        (key name) none) := by
  unfold resolveAssemblyWithin
  simp only [StateT.run_bind, StateT.run_get, pure_bind, he, hp, hr]
  rfl

theorem resolveAssemblyWithin_run_read (he : u.remembered? (key name) = none) {path : Path}
    (hp : u.referencePath? name = some path) {a : Assembly} (hr : read path = .ok a) {l : Loaded}
    {v : Universe} (hl : (bindAssembly (resolveAssemblyWithin read depth)
      ⟨⟨u.context, u.next⟩, a⟩).run ((u.noteRead path).takeIn (key name) a).2 = (l, v)) :
    (resolveAssemblyWithin read (depth + 1) name).run u = (some l, v) := by
  have hsome : (some <$> bindAssembly (resolveAssemblyWithin read depth)
      ⟨⟨u.context, u.next⟩, a⟩).run ((u.noteRead path).takeIn (key name) a).2 = (some l, v) := by
    rw [StateT.run_map, hl]
    rfl
  rw [resolveAssemblyWithin]
  simp only [StateT.run_bind, StateT.run_get, pure_bind, he, hp, hr]
  exact hsome

/-- Demands that are nested too deep find nothing. -/
theorem resolveAssemblyWithin_run_exhausted (he : u.remembered? (key name) = none) {path : Path}
    (hp : u.referencePath? name = some path) :
    (resolveAssemblyWithin read 0 name).run u = (none, u) := by
  unfold resolveAssemblyWithin
  simp only [StateT.run_bind, StateT.run_get, pure_bind, he, hp]
  rfl

/-! ## Primary assemblies -/

theorem loadPrimary_run_error {path : Path} {e : LoadError} (hr : read path = .error e)
    (u : Universe) : (loadPrimary read path).run u = (.error e, u.noteRead path) := by
  rw [loadPrimary]
  simp only [StateT.run_bind]
  rw [hr]
  rfl

/-- The assembly is taken in and kept, what is no longer kept is let go of, and the references are
bound. -/
theorem loadPrimary_run_ok {path : Path} {a : Assembly} (hr : read path = .ok a) (u : Universe) :
    (loadPrimary read path).run u =
      (Except.ok <$> bindAssembly (resolveAssembly read) ⟨⟨u.context, u.next⟩, a⟩).run
        ({ ((u.noteRead path).takeIn (key a.name) a).2 with
          primaries := u.primaries ++ [⟨u.context, u.next⟩] } : Universe).collect := by
  rw [loadPrimary]
  simp only [StateT.run_bind]
  rw [hr]
  rfl

end Assemblies

end Universe

end ApiEvolution
