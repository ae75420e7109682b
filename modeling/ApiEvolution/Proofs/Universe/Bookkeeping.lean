import ApiEvolution.Proofs.Surface.Passage
import ApiEvolution.Proofs.Universe.Runs

/-!
# Keeping books of a universe

What a universe does can be recorded: a record says what was taken in, and it may only grow. A
`Bookkeeping` says when a record is right about a universe, what it then tells about kept assemblies
and about what references lead to, and how single changes of a universe are entered. That is all it
takes for the record to be kept right while assemblies are loaded and references are resolved and
bound, however deep demands are nested (`Bookkeeping.resolveAssembly_finds`,
`Bookkeeping.resolveType_leads`, `Bookkeeping.loadPrimary_kept`).
-/

namespace ApiEvolution

open Universe Passage

/-- Records of a universe that reads by `read`, and the relation between a reference that was read
and what it is replaced by when it is bound. -/
structure Bookkeeping (γ : Type) (read : Reader) extends Passage γ where
  /-- the record is right about the universe -/
  right : γ → Universe → Prop
  /-- the assembly was taken in by this reading -/
  taken : γ → AssemblyId → Assembly → Prop
  /-- the assembly was taken in, and its references may be bound -/
  kept : γ → Loaded → Prop
  /-- the reference may lead to the definition -/
  leads : γ → TypeRef → Definition → Prop
  taken_mono {g g' id a} : le g g' → taken g id a → taken g' id a
  kept_mono {g g' l} : le g g' → kept g l → kept g' l
  /- looking up -/
  kept_of_assembly? {g u id l} : right g u → u.assembly? id = some l → kept g l
  leads_bound {g u d} (t : TypeRef) : right g u → u.bound? t.binding = some d → leads g t d
  leads_own {g u l f space name} (a : AssemblyName) (binding : Binding) : right g u → kept g l →
    l.assembly.find? space name = some f →
      leads g (.mk space name (.assembly a) binding) (l.definition f)
  leads_exported {g u l e d space name} (a : AssemblyName) (binding : Binding) : right g u →
    kept g l → l.assembly.find? space name = none →
      l.assembly.findExported? space name = some e → ¬e.assembly.agrees l.assembly.name true →
        leads g e d → leads g (.mk space name (.assembly a) binding) d
  leads_nested {g u t d e space name} (binding : Binding) : right g u → leads g t d →
    d.nested? space name = some e → leads g (.mk space name (.nested t) binding) e
  /- binding -/
  rel_self {g id a t} : taken g id a → t ∈ a.references → rel g t t
  rel_resolved {g u id a t d} : right g u → taken g id a → t ∈ a.references → t.isBound = false →
    leads g t d → rel g t (t.withBinding (.resolved d.id d.type.descriptor))
  rel_unresolved {g id a t} : taken g id a → t ∈ a.references → t.isBound = false →
    rel g t (t.withBinding .unresolved)
  right_setExported {g u id a m t t' module position} : right g u → taken g id a →
    a.modules[module]? = some m → m.exported[position]? = some t → rel g t t' →
      right g (setExported id module position t' u)
  kept_of_replaced {g u id a b} : right g u → taken g id a → Replaced (rel g) a b → kept g ⟨id, b⟩
  right_update {g u id a b} : right g u → taken g id a → kept g ⟨id, b⟩ →
    right g (u.update id fun _ => b)
  /- reporting and reading -/
  right_report {g u} (d : Diagnostic) : right g u → right g (u.report d)
  right_remember {g u} (key : String) : right g u → right g (u.remember key none)
  right_unreadable {g u path e} : right g u → read path = .error e → right g (u.noteRead path)
  takes_in {g u path a} (key : String) : right g u → read path = .ok a →
    ∃ g', le g g' ∧ right g' ((u.noteRead path).takeIn key a).2 ∧ taken g' ⟨u.context, u.next⟩ a
  right_primaries {g u} (ids : List AssemblyId) : right g u → right g { u with primaries := ids }
  right_collect {g u} : right g u → right g u.collect

namespace Bookkeeping

variable {γ : Type} {read : Reader} (B : Bookkeeping γ read)

/-- The assemblies that are found are kept. -/
def Finds (resolve : AssemblyResolver) : Prop :=
  ∀ name, B.Ensures B.right (resolve name) fun g found => ∀ l, found = some l → B.kept g l

/-- What a reference is resolved to is what it may lead to. -/
def Follows (follow : TypeRef → UniverseM (Option Definition)) : Prop :=
  ∀ t, B.Ensures B.right (follow t) fun g found => ∀ d, found = some d → B.leads g t d

variable {B} {resolve : AssemblyResolver} {follow : TypeRef → UniverseM (Option Definition)} {g : γ}
  {u : Universe}

/-! ## Resolution -/

theorem resolveInAssembly_leads (hfollow : B.Follows follow) (hu : B.right g u) {l : Loaded}
    (hl : B.kept g l) (space name : String) (a : AssemblyName) (binding : Binding) :
    B.EnsuresFrom B.right g u (resolveInAssembly follow space name l) fun g' found =>
      ∀ d, found = some d → B.leads g' (.mk space name (.assembly a) binding) d := by
  rw [resolveInAssembly]
  cases hf : l.assembly.find? space name with
  | some f =>
    refine ensuresFrom_pure hu fun d hd => ?_
    cases hd
    exact B.leads_own a binding hu hl hf
  | none =>
    cases he : l.assembly.findExported? space name with
    | none => exact ensuresFrom_pure hu nofun
    | some e =>
      simp only
      split
      · exact ensuresFrom_pure hu nofun
      · next hback =>
        obtain ⟨g', hle, hv, hfound⟩ := hfollow e g u hu
        refine ⟨g', hle, hv, fun d hd => ?_⟩
        exact B.leads_exported a binding hv (B.kept_mono hle hl) hf he hback (hfound d hd)

mutual

theorem resolveStep_leads (hresolve : B.Finds resolve) (hfollow : B.Follows follow) :
    (t : TypeRef) → B.Ensures B.right (resolveStep resolve follow t) fun g found =>
      ∀ d, found = some d → B.leads g t d
  | .mk space name scope binding => by
    intro g u hu
    rw [EnsuresFrom, resolveStep_run]
    cases hb : u.bound? binding with
    | some d =>
      refine ⟨g, B.refl g, hu, fun d' hd => ?_⟩
      cases hd
      exact B.leads_bound (.mk space name scope binding) hu hb
    | none => exact resolveScope_leads hresolve hfollow space name binding scope g u hu

theorem resolveScope_leads (hresolve : B.Finds resolve) (hfollow : B.Follows follow)
    (space name : String) (binding : Binding) : (scope : Scope) →
    B.Ensures B.right (resolveScope resolve follow space name scope) fun g found =>
      ∀ d, found = some d → B.leads g (.mk space name scope binding) d
  | .assembly a => by
    intro g u hu
    refine ensuresFrom_bind (hresolve a g u hu) fun g' v found _ hv hl => ?_
    cases found with
    | none => exact ensuresFrom_pure hv nofun
    | some l => exact resolveInAssembly_leads hfollow hv (hl l rfl) space name a binding
  | .nested declaring => by
    intro g u hu
    refine ensuresFrom_bind (resolveStep_leads hresolve hfollow declaring g u hu)
      fun g' v found _ hv hfound => ?_
    cases found with
    | none => exact ensuresFrom_pure hv nofun
    | some e => exact ensuresFrom_pure hv fun d hd => B.leads_nested binding hv (hfound e rfl) hd

end

/-- However many exported types are followed, what is found is what the reference may lead to. -/
theorem resolveWithin_leads (hresolve : B.Finds resolve) (hops : Nat) :
    B.Follows (resolveWithin resolve hops) := by
  induction hops with
  | zero => exact fun t g u hu => ⟨g, B.refl g, hu, fun d hd => B.leads_bound t hu hd⟩
  | succ hops ih => exact resolveStep_leads hresolve ih

/-! ## Binding -/

variable {id : AssemblyId} {a : Assembly}

/-- The record is right, and by it `a` was taken in by the reading `id`. -/
def Taking (B : Bookkeeping γ read) (id : AssemblyId) (a : Assembly) (g : γ) (u : Universe) :
    Prop :=
  B.right g u ∧ B.taken g id a

theorem bindReference_passes (hresolve : B.Finds resolve) {t : TypeRef} (ht : t ∈ a.references)
    (origin : AssemblyName) : B.Passes (B.Taking id a) (bindReference resolve origin t) t := by
  intro g u ⟨hu, hid⟩
  rw [EnsuresFrom]
  cases hb : t.isBound with
  | true =>
    rw [bindReference_run_bound hb]
    exact ⟨g, B.refl g, ⟨hu, hid⟩, t, .single (B.rel_self hid ht), rfl⟩
  | false =>
    obtain ⟨g', hle, hv, hfound⟩ := resolveWithin_leads hresolve (maxForwards + 1) t g u hu
    rw [bindReference_run_unbound hb, resolveTypeBy]
    generalize (resolveWithin resolve (maxForwards + 1) t).run u = out at hv hfound ⊢
    obtain ⟨found, v⟩ := out
    have hid' := B.taken_mono hle hid
    cases found with
    | some d =>
      have hrel := B.rel_resolved hv hid' ht hb (hfound d rfl)
      exact ⟨g', hle, ⟨hv, hid'⟩, _, .single hrel, rfl⟩
    | none =>
      have hrel := B.rel_unresolved hid' ht hb
      exact ⟨g', hle, ⟨B.right_report _ hv, hid'⟩, _, .single hrel, rfl⟩

/-- An exported type is bound, and its binding is entered. -/
theorem setExported_passes {m : Module} {module position : Nat} {t : TypeRef}
    (hm : a.modules[module]? = some m) (ht : m.exported[position]? = some t)
    {bind : TypeRef → UniverseM TypeRef} (hbind : B.Passes (B.Taking id a) (bind t) t) :
    B.Passes (B.Taking id a)
      (do let t ← bind t
          modify (setExported id module position t)
          return t) t := by
  intro g u hu
  refine ensuresFrom_bind (hbind g u hu) fun g' v t' _ ⟨hv, hid⟩ ⟨_, hreplaced, hvalue⟩ => ?_
  obtain rfl : t' = _ := hvalue
  have hentered := B.right_setExported hv hid hm ht hreplaced.rel
  exact ⟨g', B.refl g', ⟨hentered, hid⟩, t', hreplaced, rfl⟩

theorem bindExported_passes {m : Module} {module : Nat} (hm : a.modules[module]? = some m)
    {bind : TypeRef → UniverseM TypeRef} (position : Nat) (ts : List TypeRef)
    (hts : m.exported.drop position = ts)
    (hbind : ∀ t ∈ ts, B.Passes (B.Taking id a) (bind t) t) :
    B.Passes (B.Taking id a) (bindExported bind id module position ts) ts := by
  induction ts generalizing position with
  | nil => exact passes_pure [] rfl fun _ => rfl
  | cons t ts ih =>
    obtain ⟨ht, hrest⟩ := getElem?_of_drop_eq_cons hts
    rw [bindExported_cons]
    refine passes_of (t, ts) (fun p => p.1 :: p.2)
      (fills_bind (setExported_passes hm ht (hbind t List.mem_cons_self)) fun t' => ?_)
      (fun _ => rfl) fun _ _ => rfl
    exact fills_map (ih _ hrest fun t' ht' => hbind t' (List.mem_cons_of_mem t ht')) (t' :: ·)

theorem bindModules_passes {bind : TypeRef → UniverseM TypeRef} (module : Nat) (ms : List Module)
    (hms : a.modules.drop module = ms)
    (hbind : ∀ m ∈ ms, ∀ t ∈ TypeDefinition.refsOf m.types ++ m.exported,
      B.Passes (B.Taking id a) (bind t) t) :
    B.Passes (B.Taking id a) (bindModules bind id module ms) ms := by
  induction ms generalizing module with
  | nil => exact passes_pure [] rfl fun _ => rfl
  | cons m ms ih =>
    obtain ⟨hm, hrest⟩ := getElem?_of_drop_eq_cons hms
    have hhead := hbind m List.mem_cons_self
    have htypes := passes_types m.types fun t ht => hhead t (List.mem_append_left _ ht)
    have hexported := bindExported_passes hm 0 m.exported List.drop_zero fun t ht =>
      hhead t (List.mem_append_right _ ht)
    have hms := ih _ hrest fun m' hm' => hbind m' (List.mem_cons_of_mem m hm')
    refine passes_of (m.types, m.exported, ms)
      (fun p => ({ m with types := p.1, exported := p.2.1 } : Module) :: p.2.2)
      (fills_bind htypes fun _ => fills_bind hexported fun _ => fills_map hms _)
      (fun p => List.append_assoc _ _ _) fun g p => ?_
    exact congrArg (fun ts => ({ m with types := ts, exported := p.2.1.map g } : Module) ::
      p.2.2.map (Module.rebind g)) (TypeDefinition.rebindAll_eq g p.1)

/-- An assembly that was taken in is kept with its references bound. -/
theorem bindAssembly_kept (hresolve : B.Finds resolve) (hu : B.right g u) (hid : B.taken g id a) :
    B.EnsuresFrom B.right g u (bindAssembly resolve ⟨id, a⟩) fun g' l => B.kept g' l := by
  have hpasses : B.Passes (B.Taking id a)
      (bindModules (bindReference resolve a.name) id 0 a.modules) a.modules :=
    bindModules_passes 0 a.modules List.drop_zero fun m hm t ht =>
      bindReference_passes hresolve (Assembly.mem_references.2 ⟨m, hm, ht⟩) a.name
  obtain ⟨g', hle, ⟨hv, hid'⟩, ms, hreplaced, hvalue⟩ := hpasses g u ⟨hu, hid⟩
  have hbound : Replaced (B.rel g') a { a with modules := ms } :=
    hreplaced.of (F := fun ms => { a with modules := ms }) (fun _ => rfl) fun _ _ => rfl
  have hkept := B.kept_of_replaced hv hid' hbound
  rw [EnsuresFrom, bindAssembly_run_modules (l := ⟨id, a⟩) (Prod.ext hvalue rfl)]
  exact ⟨g', hle, B.right_update hv hid' hkept, hkept⟩

/-! ## Assemblies on demand and primary assemblies -/

theorem resolveAssemblyWithin_finds (B : Bookkeeping γ read) (depth : Nat) :
    B.Finds (resolveAssemblyWithin read depth) := by
  induction depth using Nat.strongRecOn with
  | ind depth ih =>
    intro name g u hu
    rw [EnsuresFrom]
    cases he : u.remembered? (key name) with
    | some entry =>
      rw [resolveAssemblyWithin_run_remembered he]
      refine ⟨g, B.refl g, hu, fun l hl => ?_⟩
      obtain ⟨id, -, hl⟩ := Option.bind_eq_some_iff.1 hl
      exact B.kept_of_assembly? hu hl
    | none =>
      cases hp : u.referencePath? name with
      | none =>
        rw [resolveAssemblyWithin_run_absent he hp]
        exact ⟨g, B.refl g, B.right_remember _ (B.right_report _ hu), nofun⟩
      | some path =>
        cases depth with
        | zero =>
          rw [resolveAssemblyWithin_run_exhausted he hp]
          exact ⟨g, B.refl g, hu, nofun⟩
        | succ depth =>
          cases hr : read path with
          | error e =>
            rw [resolveAssemblyWithin_run_unreadable he hp hr]
            have hnoted := B.right_unreadable hu hr
            exact ⟨g, B.refl g, B.right_remember _ (B.right_report _ hnoted), nofun⟩
          | ok a =>
            obtain ⟨g', hle, htaken, hid⟩ := B.takes_in (key name) hu hr
            obtain ⟨g'', hle', hv, hl⟩ :=
              bindAssembly_kept (ih depth (Nat.lt_succ_self depth)) htaken hid
            rw [resolveAssemblyWithin_run_read he hp hr rfl]
            refine ⟨g'', B.trans hle hle', hv, fun l hl' => ?_⟩
            cases hl'
            exact hl

theorem resolveAssembly_finds (B : Bookkeeping γ read) : B.Finds (resolveAssembly read) :=
  fun name g u hu => B.resolveAssemblyWithin_finds u.referencePaths.length name g u hu

theorem resolveType_leads (B : Bookkeeping γ read) : B.Follows (resolveType read) :=
  resolveWithin_leads B.resolveAssembly_finds (maxForwards + 1)

theorem loadPrimary_kept (B : Bookkeeping γ read) (path : Path) :
    B.Ensures B.right (loadPrimary read path) fun g found => ∀ l, found = .ok l → B.kept g l := by
  intro g u hu
  rw [EnsuresFrom]
  cases hr : read path with
  | error e =>
    rw [loadPrimary_run_error hr]
    exact ⟨g, B.refl g, B.right_unreadable hu hr, nofun⟩
  | ok a =>
    obtain ⟨g', hle, htaken, hid⟩ := B.takes_in (key a.name) hu hr
    have hprimary := B.right_primaries (u.primaries ++ [⟨u.context, u.next⟩]) htaken
    rw [loadPrimary_run_ok hr, StateT.run_map]
    obtain ⟨g'', hle', hv, hl⟩ :=
      bindAssembly_kept B.resolveAssembly_finds (B.right_collect hprimary) hid
    refine ⟨g'', B.trans hle hle', hv, fun l hl' => ?_⟩
    cases hl'
    exact hl

end Bookkeeping

end ApiEvolution
