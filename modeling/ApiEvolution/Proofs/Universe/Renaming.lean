import ApiEvolution.Proofs.Surface.InStep
import ApiEvolution.Proofs.Surface.Renaming
import ApiEvolution.Proofs.Universe.Runs
import ApiEvolution.Run.Comparison

/-!
# Loading what was renamed

A universe is renamed by renaming everything that it has read and remembers. Each step of a renamed
universe does what the step does in the universe itself, as long as renamed assemblies are read: it
reads the same paths, remembers the same simple names, and finds what is found there, renamed. So a
build that is read renamed is loaded renamed (`Build.load_renamed`).
-/

namespace ApiEvolution

namespace Renaming

/-! ## Renaming universes -/

section Action

variable (F : Renaming)

def loaded (l : Loaded) : Loaded :=
  ⟨F.assemblyId l.id, F.assembly l.assembly⟩

def definition (d : Definition) : Definition :=
  ⟨F.definitionId d.id, F.type d.type⟩

def finding : Finding → Finding
  | .assemblyNotFound a => .assemblyNotFound (F.name a)
  | .assemblyUnreadable a p e => .assemblyUnreadable (F.name a) p e
  | f => f

def diagnostic (d : Diagnostic) : Diagnostic :=
  ⟨F.finding d.finding, d.assembly.map F.simpleName⟩

/-- Renames all that the universe has read, remembers and reports. -/
def image (u : Universe) : Universe :=
  { u with
    context := F.context u.context
    names := u.names.map fun e => (e.1, e.2.map F.assemblyId)
    assemblies := u.assemblies.map F.loaded
    primaries := u.primaries.map F.assemblyId
    diagnostics := u.diagnostics.map F.diagnostic }

/-- Universes that look for assemblies in the given paths, and the renamed ones. -/
def coupling (paths : List Path) : Coupling Universe Universe where
  Holds u := u.referencePaths = paths
  image := F.image

end Action

variable {F : Renaming} (u : Universe)

/-! ## What a renamed universe remembers -/

@[simp] theorem key_name (a : AssemblyName) : Universe.key (F.name a) = Universe.key a :=
  lower_name a

theorem lookup_map_snd {α β : Type} (f : α → β) (entries : List (String × α)) (k : String) :
    (entries.map fun e => (e.1, f e.2)).lookup k = (entries.lookup k).map f := by
  induction entries with
  | nil => rfl
  | cons e entries ih =>
    rw [List.map_cons, List.lookup_cons, List.lookup_cons, ih]
    split <;> rfl

theorem remembered?_image (k : String) :
    (F.image u).remembered? k = (u.remembered? k).map (Option.map F.assemblyId) :=
  lookup_map_snd _ u.names k

theorem assembly?_image (id : AssemblyId) :
    (F.image u).assembly? (F.assemblyId id) = (u.assembly? id).map F.loaded := by
  have hid : ((fun l : Loaded => l.id == F.assemblyId id) ∘ F.loaded) = fun l => l.id == id := by
    funext l
    exact assemblyId_beq l.id id
  rw [Universe.assembly?, image, List.find?_map, hid, Universe.assembly?]

theorem definition?_image (id : DefinitionId) :
    (F.image u).definition? (F.definitionId id) = (u.definition? id).map F.type := by
  have hassembly : (F.definitionId id).assembly = F.assemblyId id.assembly := rfl
  rw [Universe.definition?, hassembly, assembly?_image, Universe.definition?]
  cases u.assembly? id.assembly with
  | none => rfl
  | some l => exact definitionAt? l.assembly id.position

theorem bound?_image (b : Binding) :
    (F.image u).bound? (F.binding b) = (u.bound? b).map F.definition := by
  cases b with
  | resolved id d =>
    rw [binding, Universe.bound?, Universe.bound?, definition?_image, Option.map_map,
      Option.map_map]
    rfl
  | _ => rfl

theorem referencePath?_image (a : AssemblyName) :
    (F.image u).referencePath? (F.name a) = u.referencePath? a := by
  have hletters (s : String) : Text.sameLetters s (F.name a).name = Text.sameLetters s a.name := by
    rw [Text.sameLetters, lower_name, Text.sameLetters]
  rw [Universe.referencePath?, Universe.referencePath?]
  simp only [hletters]
  rfl

theorem keeps_image (id : AssemblyId) : (F.image u).keeps (F.assemblyId id) = u.keeps id := by
  have hentry (e : Option AssemblyId) :
      (e.map F.assemblyId == some (F.assemblyId id)) = (e == some id) := by
    cases e with
    | none => rfl
    | some i => exact assemblyId_beq i id
  rw [Universe.keeps, Universe.keeps, image, List.any_map, List.contains_eq_any_beq,
    List.contains_eq_any_beq, List.any_map]
  congr 1
  · congr 1
    funext i
    exact assemblyId_beq id i
  · congr 1
    funext e
    exact hentry e.2

theorem nested?_definition (d : Definition) (space name : String) :
    (F.definition d).nested? space name = (d.nested? space name).map F.definition := by
  have hfound := nested? (F := F) ⟨d.id.position, d.type⟩ space name
  rw [Definition.nested?, Definition.nested?, Option.map_map]
  refine (congrArg (Option.map _) hfound).trans ?_
  rw [Option.map_map]
  rfl

/-! ## Changes of a renamed universe -/

theorem report_image (d : Diagnostic) :
    (F.image u).report (F.diagnostic d) = F.image (u.report d) := by
  simp [Universe.report, image]

theorem remember_image (k : String) (e : Option AssemblyId) :
    (F.image u).remember k (e.map F.assemblyId) = F.image (u.remember k e) := by
  simp [Universe.remember, image, List.filter_map, Function.comp_def]

theorem update_image {id : AssemblyId} {f g : Assembly → Assembly}
    (h : ∀ a, g (F.assembly a) = F.assembly (f a)) :
    (F.image u).update (F.assemblyId id) g = F.image (u.update id f) := by
  have hone (l : Loaded) : (if (F.loaded l).id == F.assemblyId id then
      { F.loaded l with assembly := g (F.loaded l).assembly } else F.loaded l) =
        F.loaded (if l.id == id then { l with assembly := f l.assembly } else l) := by
    have hid : ((F.loaded l).id == F.assemblyId id) = (l.id == id) := assemblyId_beq l.id id
    rw [hid]
    split
    · exact congrArg (Loaded.mk _) (h l.assembly)
    · rfl
  simp only [Universe.update, image, List.map_map]
  congr 1
  exact List.map_congr_left fun l _ => hone l

theorem setExported_image (id : AssemblyId) (i j : Nat) (t : TypeRef) :
    Universe.setExported (F.assemblyId id) i j (F.ref t) (F.image u) =
      F.image (Universe.setExported id i j t u) := by
  refine update_image u fun a => ?_
  exact congrArg (Assembly.mk (F.name a.name)) (modify_exported a.modules i j t)

theorem takeIn_image (k : String) (a : Assembly) :
    (F.image u).takeIn k (F.assembly a) =
      (F.loaded (u.takeIn k a).1, F.image (u.takeIn k a).2) := by
  simp [Universe.takeIn, Universe.remember, image, loaded, assemblyId, List.filter_map,
    Function.comp_def]

theorem collect_image : (F.image u).collect = F.image u.collect := by
  have hkept : ∀ d : DefinitionId,
      (F.image u).keeps (F.definitionId d).assembly = u.keeps d.assembly :=
    fun d => keeps_image u d.assembly
  have hloaded : (fun l : Loaded => (F.image u).keeps l.id) ∘ F.loaded = fun l => u.keeps l.id :=
    funext fun l => keeps_image u l.id
  have hassemblies : (F.image u).collect.assemblies = (F.image u.collect).assemblies := by
    simp only [Universe.collect, image, List.map_map, List.filter_map, ← hloaded]
    exact List.map_congr_left fun l _ => congrArg (Loaded.mk _) (release_assembly hkept l.assembly)
  exact congrArg (fun ls => { F.image u with assemblies := ls }) hassemblies

/-! ## Resolution in step -/

open Universe Coupling

variable {paths : List Path} {read read' : Reader} {resolve resolve' : AssemblyResolver}
  {follow follow' : TypeRef → UniverseM (Option Definition)}
  {bind bind' : TypeRef → UniverseM TypeRef}

/-- The two resolvers find assemblies in step. -/
def Resolves (F : Renaming) (paths : List Path) (resolve resolve' : AssemblyResolver) : Prop :=
  ∀ a, (F.coupling paths).InStep (Option.map F.loaded) (resolve a) (resolve' (F.name a))

/-- The two ways to follow references find definitions in step. -/
def Follows (F : Renaming) (paths : List Path)
    (follow follow' : TypeRef → UniverseM (Option Definition)) : Prop :=
  ∀ t, (F.coupling paths).InStep (Option.map F.definition) (follow t) (follow' (F.ref t))

theorem inStep_resolveInAssembly (hfollow : F.Follows paths follow follow') (space name : String)
    (l : Loaded) : (F.coupling paths).InStep (Option.map F.definition)
      (resolveInAssembly follow space name l)
      (resolveInAssembly follow' space name (F.loaded l)) := by
  have hassembly : (F.loaded l).assembly = F.assembly l.assembly := rfl
  have hname : (F.assembly l.assembly).name = F.name l.assembly.name := rfl
  rw [resolveInAssembly, resolveInAssembly, hassembly, find?]
  cases l.assembly.find? space name with
  | some f => exact inStep_pure (some (l.definition f))
  | none =>
    rw [findExported?]
    cases l.assembly.findExported? space name with
    | none => exact inStep_pure none
    | some forwarder =>
      simp only [Option.map_none, Option.map_some, assembly_ref, hname, agrees_name]
      split
      · exact inStep_pure none
      · exact hfollow forwarder

mutual

theorem inStep_resolveStep (hresolve : F.Resolves paths resolve resolve')
    (hfollow : F.Follows paths follow follow') : (t : TypeRef) →
    (F.coupling paths).InStep (Option.map F.definition) (resolveStep resolve follow t)
      (resolveStep resolve' follow' (F.ref t))
  | .mk space name home known => by
    intro u hu
    have himage : (F.coupling paths).image u = F.image u := rfl
    rw [ref, resolveStep_run, resolveStep_run, himage, bound?_image]
    cases u.bound? known with
    | some d => exact ⟨hu, rfl⟩
    | none => exact inStep_resolveScope hresolve hfollow space name home u hu

theorem inStep_resolveScope (hresolve : F.Resolves paths resolve resolve')
    (hfollow : F.Follows paths follow follow') (space name : String) : (s : Scope) →
    (F.coupling paths).InStep (Option.map F.definition) (resolveScope resolve follow space name s)
      (resolveScope resolve' follow' space name (F.scope s))
  | .assembly a => by
    refine inStep_bind (hresolve a) fun found => ?_
    cases found with
    | none => exact inStep_pure none
    | some l => exact inStep_resolveInAssembly hfollow space name l
  | .nested declaring => by
    refine inStep_bind (inStep_resolveStep hresolve hfollow declaring) fun found => ?_
    cases found with
    | none => exact inStep_pure none
    | some d =>
      simp only [Option.map_some, nested?_definition]
      exact inStep_pure (d.nested? space name)

end

theorem follows_resolveWithin (hresolve : F.Resolves paths resolve resolve') (hops : Nat) :
    F.Follows paths (resolveWithin resolve hops) (resolveWithin resolve' hops) := by
  induction hops with
  | zero =>
    intro t u hu
    have hbound := bound?_image (F := F) u t.binding
    rw [← binding_ref] at hbound
    exact ⟨hu, congrArg (fun d => (d, F.image u)) hbound⟩
  | succ hops ih => exact inStep_resolveStep hresolve ih

/-! ## Binding in step -/

theorem inStep_bindReference (hresolve : F.Resolves paths resolve resolve')
    (origin : AssemblyName) :
    (F.coupling paths).Meets F.ref (bindReference resolve origin)
      (bindReference resolve' (F.name origin)) := by
  intro t u hu
  cases hb : t.isBound with
  | true =>
    rw [bindReference_run_bound hb, bindReference_run_bound (by rw [isBound_ref, hb])]
    exact ⟨hu, rfl⟩
  | false =>
    obtain ⟨hv, hrun⟩ := follows_resolveWithin hresolve (maxForwards + 1) t u hu
    rw [bindReference_run_unbound hb, bindReference_run_unbound (by rw [isBound_ref, hb]),
      resolveTypeBy, resolveTypeBy, hrun]
    generalize (resolveWithin resolve (maxForwards + 1) t).run u = out at hv
    obtain ⟨found, v⟩ := out
    cases found with
    | some d =>
      refine ⟨hv, congrArg (fun r => (r, F.image v)) ?_⟩
      rw [ref_withBinding]
      simp only [binding, ← descriptor_type]
      rfl
    | none =>
      have hreport : (F.image v).report ⟨.typeUnresolved (F.ref t).fullName,
          some (F.name origin).name⟩ = F.image (v.report ⟨.typeUnresolved t.fullName,
            some origin.name⟩) := by
        rw [fullName_ref]
        exact report_image v ⟨.typeUnresolved t.fullName, some origin.name⟩
      refine ⟨hv, ?_⟩
      simp only [Option.map_none]
      exact Prod.ext (ref_withBinding t .unresolved).symm hreport

theorem inStep_bindExported (hbind : (F.coupling paths).Meets F.ref bind bind') (id : AssemblyId)
    (i j : Nat) (ts : List TypeRef) : (F.coupling paths).InStep (List.map F.ref)
      (bindExported bind id i j ts)
      (bindExported bind' (F.assemblyId id) i j (ts.map F.ref)) := by
  induction ts generalizing j with
  | nil => exact inStep_pure []
  | cons t ts ih =>
    refine inStep_bind (hbind t) fun t' => ?_
    refine inStep_bind (inStep_modify (fun _ hu => hu) fun u => setExported_image u id i j t') ?_
    exact fun _ => inStep_map (ih (j + 1)) fun _ => rfl

theorem inStep_bindModules (hbind : (F.coupling paths).Meets F.ref bind bind') (id : AssemblyId)
    (i : Nat) (ms : List Module) : (F.coupling paths).InStep (List.map F.module)
      (bindModules bind id i ms) (bindModules bind' (F.assemblyId id) i (ms.map F.module)) := by
  induction ms generalizing i with
  | nil => exact inStep_pure []
  | cons m ms ih =>
    refine inStep_bind (inStep_types hbind m.types) fun types => ?_
    refine inStep_bind (inStep_bindExported hbind id i 0 m.exported) fun exported => ?_
    exact inStep_map (ih (i + 1)) fun _ => rfl

theorem inStep_bindAssembly (hresolve : F.Resolves paths resolve resolve') (l : Loaded) :
    (F.coupling paths).InStep F.loaded (bindAssembly resolve l)
      (bindAssembly resolve' (F.loaded l)) := by
  refine inStep_bind (inStep_bindModules (inStep_bindReference hresolve l.assembly.name) l.id 0
    l.assembly.modules) fun ms => ?_
  refine inStep_bind (inStep_modify (fun _ hu => hu) fun u => update_image u fun _ => rfl) ?_
  exact fun _ => inStep_pure (⟨l.id, { l.assembly with modules := ms }⟩ : Loaded)

/-! ## Loading in step -/

/-- At each of the paths the second reader reads what the first one reads, renamed. -/
def Reads (F : Renaming) (paths : List Path) (read read' : Reader) : Prop :=
  ∀ p ∈ paths, read' p = (read p).map F.assembly

theorem inStep_takeIn (k : String) (a : Assembly) :
    (F.coupling paths).InStep F.loaded (modifyGet (takeIn k a))
      (modifyGet (takeIn k (F.assembly a))) :=
  inStep_modifyGet (fun _ hu => hu) fun u => takeIn_image u k a

/-- The name leads nowhere, which is reported and remembered. -/
theorem inStep_remember_none (k : String) (d : Diagnostic) :
    (F.coupling paths).InStep id (modify fun u => (u.report d).remember k none)
      (modify fun u => (u.report (F.diagnostic d)).remember k none) := by
  refine inStep_modify (fun _ hu => hu) fun u => ?_
  exact (congrArg _ (report_image u d)).trans (remember_image _ k none)

/-- Assemblies are demanded in step: no path but the reference paths is read, and they lead to the
same assemblies, renamed. -/
theorem resolves_resolveAssemblyWithin (hread : F.Reads paths read read') (depth : Nat) :
    F.Resolves paths (resolveAssemblyWithin read depth) (resolveAssemblyWithin read' depth) := by
  induction depth using Nat.strongRecOn with
  | ind depth ih =>
    intro a
    unfold resolveAssemblyWithin
    refine inStep_get fun u hu => ?_
    have himage : (F.coupling paths).image u = F.image u := rfl
    rw [himage, key_name, remembered?_image, referencePath?_image]
    cases u.remembered? (key a) with
    | some entry =>
      have hentry : (entry.map F.assemblyId).bind (F.image u).assembly? =
          (entry.bind u.assembly?).map F.loaded := by
        cases entry with
        | none => rfl
        | some id => exact assembly?_image u id
      simp only [Option.map_some, hentry]
      exact inStep_pure (entry.bind u.assembly?)
    | none =>
      cases hp : u.referencePath? a with
      | none =>
        exact inStep_bind (inStep_remember_none _ ⟨.assemblyNotFound a, none⟩) fun _ =>
          inStep_pure none
      | some p =>
        cases depth with
        | zero => exact inStep_pure none
        | succ depth =>
          refine inStep_bind (inStep_modify (fun _ hv => hv) fun _ => rfl) fun _ => ?_
          rw [hread p (hu ▸ List.mem_of_find?_eq_some hp)]
          cases read p with
          | error e =>
            exact inStep_bind (inStep_remember_none _ ⟨.assemblyUnreadable a p e, none⟩)
              fun _ => inStep_pure none
          | ok c =>
            refine inStep_bind (inStep_takeIn (key a) c) fun l => ?_
            have hbound := inStep_bindAssembly (ih depth (Nat.lt_succ_self depth)) l
            rw [← bind_pure_comp, ← bind_pure_comp]
            exact inStep_map hbound fun _ => rfl

theorem resolves_resolveAssembly (hread : F.Reads paths read read') :
    F.Resolves paths (resolveAssembly read) (resolveAssembly read') :=
  fun a => inStep_get fun u _ => resolves_resolveAssemblyWithin hread u.referencePaths.length a

theorem inStep_loadPrimary (hread : F.Reads paths read read') {p : Path}
    (hp : read' p = (read p).map F.assembly) :
    (F.coupling paths).InStep (Except.map F.loaded) (loadPrimary read p) (loadPrimary read' p) := by
  refine inStep_bind (inStep_modify (fun _ hu => hu) fun u => rfl) fun _ => ?_
  rw [hp]
  cases read p with
  | error e => exact inStep_pure (Except.error e)
  | ok a =>
    have hkey : key (F.assembly a).name = key a.name := key_name a.name
    have hkept (l : Loaded) (u : Universe) :
        { F.image u with primaries := (F.image u).primaries ++ [F.assemblyId l.id] } =
          F.image { u with primaries := u.primaries ++ [l.id] } := by
      simp [image]
    simp only [Except.map, hkey]
    refine inStep_bind (inStep_takeIn (key a.name) a) fun l => ?_
    refine inStep_bind (inStep_modify (fun _ hu => hu) fun u => ?_) fun _ => ?_
    · exact (congrArg collect (hkept l u)).trans (collect_image _)
    · have hbound := inStep_bindAssembly (resolves_resolveAssembly hread) l
      rw [← bind_pure_comp, ← bind_pure_comp]
      exact inStep_map hbound fun _ => rfl

/-! ## Nothing renamed -/

theorem loaded_identity (l : Loaded) : identity.loaded l = l :=
  congrArg (Loaded.mk l.id) (assembly_identity l.assembly)

theorem diagnostic_identity (d : Diagnostic) : identity.diagnostic d = d := by
  obtain ⟨f, a⟩ := d
  have ha : a.map identity.simpleName = a := Option.map_id' ..
  have hf : identity.finding f = f := by
    cases f <;> rfl
  rw [diagnostic, hf, ha]

theorem image_identity (u : Universe) : identity.image u = u := by
  have hentry :
      (fun e : String × Option AssemblyId => (e.1, e.2.map identity.assemblyId)) = id := by
    funext e
    exact Prod.ext rfl (Option.map_id' ..)
  have hids : identity.assemblyId = id := rfl
  rw [image, hentry, hids, funext loaded_identity, funext diagnostic_identity]
  simp only [List.map_id, List.map_id']
  rfl

end Renaming

/-! ## Builds -/

/-- A build that is read renamed is loaded renamed. -/
theorem Build.load_renamed {F : Renaming} {read read' : Reader} {b b' : Build}
    (hassembly : b'.assembly = b.assembly) (hreferences : b'.references = b.references)
    (hread : F.Reads (b.assembly :: b.references) read read') (context : Nat) :
    b'.load read' (F.context context) =
      ((b.load read context).1.map F.loaded, F.image (b.load read context).2) := by
  have hstart : b'.newUniverse (F.context context) = F.image (b.newUniverse context) := by
    rw [newUniverse, hreferences]
    rfl
  have hprimary := hread b.assembly List.mem_cons_self
  have hothers : F.Reads b.references read read' := fun p hp => hread p (List.mem_cons_of_mem _ hp)
  rw [load, hassembly, hstart]
  exact (Renaming.inStep_loadPrimary hothers hprimary (b.newUniverse context) rfl).2

end ApiEvolution
