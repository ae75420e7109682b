import ApiEvolution.Proofs.Surface.Detached
import ApiEvolution.Proofs.Universe.Mirror
import ApiEvolution.Proofs.Universe.Reach
import ApiEvolution.Proofs.Universe.Runs

/-!
# Universes grow

While references are resolved, nothing that is remembered is forgotten, and assemblies that are
kept stay as they are (`Universe.Extends`); only the assembly whose references are being bound
changes, and there no exported type that is bound is bound otherwise (`Universe.Precedes`). So
whatever is a shortcut remains one (`Precedes.shortcuts`), and less is left to read
(`unreadCount_le`).
-/

namespace ApiEvolution

/-! ## Bound exported types stay -/

/-- In the place of `t` stands `t'`, which is the same reference if `t` is bound to a definition. -/
def TypeRef.Later (t t' : TypeRef) : Prop :=
  t' = t ∨ t.target? = none ∧ t'.space = t.space ∧ t'.name = t.name

namespace TypeRef.Later

variable {t t' t'' : TypeRef}

theorem refl (t : TypeRef) : t.Later t :=
  .inl rfl

theorem trans (h : t.Later t') (h' : t'.Later t'') : t.Later t'' := by
  rcases h with rfl | ⟨hnone, hspace, hname⟩
  · exact h'
  · refine .inr ⟨hnone, ?_⟩
    rcases h' with rfl | ⟨-, hspace', hname'⟩
    · exact ⟨hspace, hname⟩
    · exact ⟨hspace'.trans hspace, hname'.trans hname⟩

theorem same_name (h : t.Later t') : t'.space = t.space ∧ t'.name = t.name := by
  rcases h with rfl | ⟨-, hname⟩
  · exact ⟨rfl, rfl⟩
  · exact hname

theorem isSome_target? (h : t.Later t') (ht : t.target?.isSome) : t'.target?.isSome := by
  rcases h with rfl | ⟨hnone, -⟩
  · exact ht
  · rw [hnone] at ht
    cases ht

end TypeRef.Later

/-- The exported types of `b` are those of `a` later on. -/
def Assembly.Later (a b : Assembly) : Prop :=
  List.Forall₂ TypeRef.Later a.exported b.exported

theorem Assembly.Later.refl (a : Assembly) : a.Later a :=
  List.forall₂_same.2 fun t _ => .refl t

theorem Assembly.Later.of_eq {a b : Assembly} (h : a = b) : a.Later b :=
  h ▸ .refl a

theorem Assembly.Later.trans {a b c : Assembly} (h : a.Later b) (h' : b.Later c) : a.Later c :=
  forall₂_trans (fun _ _ _ hxy hyz => hxy.trans hyz) h h'

/-- The exported types, module by module. -/
def Assembly.exports (a : Assembly) : List (List TypeRef) :=
  a.modules.map (·.exported)

theorem Assembly.exported_eq (a : Assembly) : a.exported = a.exports.flatten :=
  List.flatMap_def ..

theorem Assembly.Later.of_exports {a b : Assembly} (h : b.exports = a.exports) : a.Later b := by
  rw [Later, a.exported_eq, b.exported_eq, h]
  exact List.forall₂_same.2 fun t _ => .refl t

/-- One exported type is replaced by a later one. -/
theorem Assembly.later_of_exports {a b : Assembly} {es es' : List (List TypeRef)}
    {done ts : List TypeRef} {t t' : TypeRef} (ha : a.exports = es ++ (done ++ t :: ts) :: es')
    (hb : b.exports = es ++ (done ++ t' :: ts) :: es') (ht : t.Later t') : a.Later b := by
  have hsame (rs : List TypeRef) : List.Forall₂ TypeRef.Later rs rs :=
    List.forall₂_same.2 fun r _ => .refl r
  rw [Later, a.exported_eq, b.exported_eq, ha, hb]
  simp only [List.flatten_append, List.flatten_cons]
  exact List.rel_append (hsame _)
    (List.rel_append (List.rel_append (hsame _) (.cons ht (hsame _))) (hsame _))

theorem Assembly.exports_setExported {a : Assembly} {es es' : List (List TypeRef)}
    {done ts : List TypeRef} {t : TypeRef} (ha : a.exports = es ++ (done ++ t :: ts) :: es')
    (t' : TypeRef) : (a.setExported es.length done.length t').exports =
      es ++ (done ++ t' :: ts) :: es' := by
  rw [exports] at ha
  rw [exports, setExported]
  generalize a.modules = ms at ha ⊢
  -- the module is reached by passing one module for each list of `es`
  induction es generalizing ms with
  | nil =>
    obtain ⟨m, ms, rfl, hm, hms⟩ := List.map_eq_cons_iff.1 ha
    simp [hm, hms]
  | cons e es ih =>
    obtain ⟨m, ms, rfl, hm, hms⟩ := List.map_eq_cons_iff.1 ha
    rw [List.length_cons, List.modify_succ_cons, List.map_cons, ih ms hms, hm, List.cons_append]

/-! ## Growing -/

namespace Universe

/-- The assembly that is remembered under a simple name. -/
def idOf (u : Universe) (key : String) : Option AssemblyId :=
  (u.remembered? key).join

/-- Nothing that is remembered is forgotten, and an assembly that is kept is kept on, as it is or as
something that stands in the relation `R` to it. -/
structure Grows (R : AssemblyId → Assembly → Assembly → Prop) (u v : Universe) : Prop where
  context : v.context = u.context
  paths : v.referencePaths = u.referencePaths
  remembers : ∀ key entry, u.remembered? key = some entry → v.remembered? key = some entry
  keeps : ∀ id a, u.assembly? id = some ⟨id, a⟩ → ∃ b, v.assembly? id = some ⟨id, b⟩ ∧ R id a b

/-- Assemblies stay as they are. -/
abbrev Extends : Universe → Universe → Prop :=
  Grows fun _ => Eq

/-- Bound exported types stay as they are. -/
abbrev Precedes : Universe → Universe → Prop :=
  Grows fun _ => Assembly.Later

/-- Bound exported types stay as they are, and so does everything in assemblies other than `id`. -/
abbrev Advances (id : AssemblyId) : Universe → Universe → Prop :=
  Grows fun id' a b => a.Later b ∧ (id' ≠ id → b = a)

variable {R S : AssemblyId → Assembly → Assembly → Prop} {u v x : Universe}

namespace Grows

theorem refl (hR : ∀ id a, R id a a) (u : Universe) : Grows R u u :=
  ⟨rfl, rfl, fun _ _ h => h, fun id a h => ⟨a, h, hR id a⟩⟩

theorem trans (hR : ∀ id a b c, R id a b → R id b c → R id a c) (h : Grows R u v)
    (h' : Grows R v x) : Grows R u x := by
  refine ⟨h'.context.trans h.context, h'.paths.trans h.paths,
    fun key entry he => h'.remembers key entry (h.remembers key entry he), fun id a ha => ?_⟩
  obtain ⟨b, hb, hab⟩ := h.keeps id a ha
  obtain ⟨c, hc, hbc⟩ := h'.keeps id b hb
  exact ⟨c, hc, hR id a b c hab hbc⟩

theorem imp (hRS : ∀ id a b, R id a b → S id a b) (h : Grows R u v) : Grows S u v :=
  ⟨h.context, h.paths, h.remembers, fun id a ha => (h.keeps id a ha).imp fun b hb =>
    ⟨hb.1, hRS id a b hb.2⟩⟩

theorem idOf (h : Grows R u v) {key : String} {id : AssemblyId} (hid : u.idOf key = some id) :
    v.idOf key = some id := by
  have hentry := h.remembers key (some id) (Option.join_eq_some_iff.1 hid)
  exact Option.join_eq_some_iff.2 hentry

end Grows

theorem Extends.refl (u : Universe) : u.Extends u :=
  Grows.refl (fun _ _ => rfl) u

theorem Extends.trans (h : u.Extends v) (h' : v.Extends x) : u.Extends x :=
  Grows.trans (fun _ _ _ _ hab hbc => hab.trans hbc) h h'

theorem Extends.assembly? (h : u.Extends v) {id : AssemblyId} {a : Assembly}
    (ha : u.assembly? id = some ⟨id, a⟩) : v.assembly? id = some ⟨id, a⟩ := by
  obtain ⟨b, hb, rfl⟩ := h.keeps id a ha
  exact hb

theorem Extends.advances (h : u.Extends v) (id : AssemblyId) : u.Advances id v :=
  h.imp fun _ _ _ hab => ⟨.of_eq hab, fun _ => Eq.symm hab⟩

theorem Advances.refl (id : AssemblyId) (u : Universe) : u.Advances id u :=
  (Extends.refl u).advances id

theorem Advances.trans {id : AssemblyId} (h : u.Advances id v) (h' : v.Advances id x) :
    u.Advances id x :=
  Grows.trans (fun _ _ _ _ hab hbc =>
    ⟨hab.1.trans hbc.1, fun hne => (hbc.2 hne).trans (hab.2 hne)⟩) h h'

/-- What happens to an assembly that was not kept before leaves those that were. -/
theorem Extends.trans_advances {id : AssemblyId} (h : u.Extends v) (h' : v.Advances id x)
    (hnew : u.assembly? id = none) : u.Extends x := by
  refine ⟨h'.context.trans h.context, h'.paths.trans h.paths,
    fun key entry he => h'.remembers key entry (h.remembers key entry he), fun id' a ha => ?_⟩
  obtain ⟨b, hb, -, hsame⟩ := h'.keeps id' a (h.assembly? ha)
  refine ⟨b, hb, (hsame ?_).symm⟩
  rintro rfl
  rw [hnew] at ha
  cases ha

theorem Advances.precedes {id : AssemblyId} (h : u.Advances id v) : u.Precedes v :=
  h.imp fun _ _ _ hab => hab.1

theorem Extends.precedes (h : u.Extends v) : u.Precedes v :=
  h.imp fun _ _ _ hab => .of_eq hab

/-! ## Shortcuts -/

/-- The exported types that are bound to definitions. -/
def Shortcuts (u : Universe) : World.Shortcuts := fun key space name =>
  ∃ id a e, u.idOf key = some id ∧ u.assembly? id = some ⟨id, a⟩ ∧
    a.findExported? space name = some e ∧ e.target?.isSome

theorem shortcuts_iff {key space name : String} {l : Loaded} {e : TypeRef}
    (hid : u.idOf key = some l.id) (hl : u.assembly? l.id = some l)
    (he : l.assembly.findExported? space name = some e) :
    u.Shortcuts key space name ↔ e.target?.isSome := by
  refine ⟨fun ⟨id, a, e', hid', ha, he', htarget⟩ => ?_, fun htarget => ⟨_, _, _, hid, hl, he, htarget⟩⟩
  obtain rfl : l.id = id := Option.some.inj (hid.symm.trans hid')
  have hsame : l.assembly = a := congrArg Loaded.assembly (Option.some.inj (hl.symm.trans ha))
  rw [← hsame, he] at he'
  cases he'
  exact htarget

/-- Shortcuts remain. -/
theorem Precedes.shortcuts (h : u.Precedes v) {key space name : String}
    (hknown : u.Shortcuts key space name) : v.Shortcuts key space name := by
  obtain ⟨id, a, e, hid, ha, he, htarget⟩ := hknown
  obtain ⟨b, hb, hlater⟩ := h.keeps id a ha
  -- exported types keep their names and their order, so the first one of this name stays the first
  have hfound := Assembly.rel_findExported? hlater (fun _ _ hr => hr.same_name) space name
  rw [he] at hfound
  obtain ⟨e', he', hrel⟩ : ∃ e', b.findExported? space name = some e' ∧ e.Later e' := by
    generalize b.findExported? space name = found at hfound
    cases hfound with
    | some hrel => exact ⟨_, rfl, hrel⟩
  exact ⟨id, b, e', h.idOf hid, hb, he', hrel.isSome_target? htarget⟩

/-! ## Steps -/

theorem remembered?_remember (u : Universe) (k k' : String) (entry : Option AssemblyId) :
    (u.remember k entry).remembered? k' = if k' = k then some entry else u.remembered? k' := by
  by_cases h : k' = k
  · subst h
    simp [remembered?, remember]
  · have hk : (k' == k) = false := by simpa using h
    -- older entries of `k` are dropped, which a look-up of another name does not see
    have hrest : ∀ names : List (String × Option AssemblyId),
        (names.filter (·.1 != k)).lookup k' = names.lookup k' := by
      intro names
      induction names with
      | nil => rfl
      | cons e names ih =>
        by_cases he : e.1 = k
        · rw [List.filter_cons_of_neg (by simp [he]), ih, List.lookup_cons, he, hk]
        · rw [List.filter_cons_of_pos (by simp [he]), List.lookup_cons, List.lookup_cons, ih]
    rw [if_neg h, remember, remembered?, List.lookup_cons, hk, hrest, remembered?]

theorem extends_remember {k : String} (hk : u.remembered? k = none) (entry : Option AssemblyId) :
    u.Extends (u.remember k entry) := by
  refine ⟨rfl, rfl, fun key e he => ?_, fun id a ha => ⟨a, ha, rfl⟩⟩
  rw [remembered?_remember, if_neg]
  · exact he
  · rintro rfl
    rw [hk] at he
    cases he

/-- What is not remembered after an entry was made was not before. -/
theorem remembered?_eq_none_of_remember {k k' : String} {entry : Option AssemblyId}
    (he : (u.remember k entry).remembered? k' = none) : u.remembered? k' = none := by
  rw [remembered?_remember] at he
  split at he
  · cases he
  · exact he

theorem remembered?_takeIn (u : Universe) (k k' : String) (a : Assembly) :
    (u.takeIn k a).2.remembered? k' =
      if k' = k then some (some ⟨u.context, u.next⟩) else u.remembered? k' :=
  remembered?_remember u k k' (some ⟨u.context, u.next⟩)

theorem extends_takeIn {k : String} (hk : u.remembered? k = none) (a : Assembly) :
    u.Extends (u.takeIn k a).2 := by
  refine ⟨rfl, rfl, (extends_remember hk (some ⟨u.context, u.next⟩)).remembers, fun id b hb => ?_⟩
  refine ⟨b, ?_, rfl⟩
  have hfind : (u.takeIn k a).2.assembly? id =
      (u.assemblies ++ [(⟨⟨u.context, u.next⟩, a⟩ : Loaded)]).find? (·.id == id) := rfl
  rw [hfind, List.find?_append, ← assembly?, hb, Option.some_or]

theorem extends_report (u : Universe) (d : Diagnostic) : u.Extends (u.report d) :=
  ⟨rfl, rfl, fun _ _ he => he, fun _ a ha => ⟨a, ha, rfl⟩⟩

theorem extends_noteRead (u : Universe) (p : Path) : u.Extends (u.noteRead p) :=
  ⟨rfl, rfl, fun _ _ he => he, fun _ a ha => ⟨a, ha, rfl⟩⟩

theorem assembly?_update (u : Universe) (id id' : AssemblyId) (f : Assembly → Assembly) :
    (u.update id f).assembly? id' = (u.assembly? id').map fun l =>
      if id' = id then { l with assembly := f l.assembly } else l := by
  have hsame : ((fun l : Loaded => l.id == id') ∘ fun l : Loaded =>
      if l.id == id then { l with assembly := f l.assembly } else l) = fun l => l.id == id' := by
    funext l
    simp only [Function.comp_apply]
    split <;> rfl
  rw [update, assembly?, assembly?, List.find?_map, hsame]
  refine Option.map_congr fun l hl => ?_
  have hid : l.id = id' := assembly?_id hl
  simp [hid]

theorem advances_update {id : AssemblyId} {f : Assembly → Assembly}
    (hf : ∀ a, u.assembly? id = some ⟨id, a⟩ → a.Later (f a)) : u.Advances id (u.update id f) := by
  refine ⟨rfl, rfl, fun _ _ he => he, fun id' a ha => ?_⟩
  rw [assembly?_update, ha, Option.map_some]
  by_cases e : id' = id
  · subst e
    exact ⟨f a, by rw [if_pos rfl], hf a ha, fun hne => absurd rfl hne⟩
  · exact ⟨a, by rw [if_neg e], .refl a, fun _ => rfl⟩

/-! ## What is left to read -/

/-- The same paths may be read, and nothing that is remembered is forgotten, though it may be
remembered otherwise. -/
structure Recalls (u v : Universe) : Prop where
  paths : v.referencePaths = u.referencePaths
  remembers : ∀ key, (u.remembered? key).isSome → (v.remembered? key).isSome

theorem Grows.recalls (h : Grows R u v) : u.Recalls v := by
  refine ⟨h.paths, fun key hu => ?_⟩
  obtain ⟨entry, he⟩ := Option.isSome_iff_exists.1 hu
  rw [h.remembers key entry he]
  rfl

/-- The path has not been read for the name that leads to it. -/
def isUnread (u : Universe) (p : Path) : Bool :=
  p.stem?.any fun s => (u.remembered? (Text.lower s)).isNone

def unreadCount (u : Universe) : Nat :=
  u.referencePaths.countP u.isUnread

theorem Recalls.isUnread (h : u.Recalls v) {p : Path} (hp : v.isUnread p) : u.isUnread p := by
  obtain ⟨s, hs, hnone⟩ := (Option.any_eq_true _ _).1 hp
  refine (Option.any_eq_true _ _).2 ⟨s, hs, ?_⟩
  cases hu : u.remembered? (Text.lower s) with
  | none => rfl
  | some entry =>
    have hsome := h.remembers (Text.lower s) (by rw [hu]; rfl)
    rw [Option.isNone_iff_eq_none.1 hnone] at hsome
    cases hsome

/-- A name that leads to a path is the name of its file. -/
theorem stem_of_referencePath? {name : AssemblyName} {p : Path}
    (hp : u.referencePath? name = some p) :
    p ∈ u.referencePaths ∧ ∃ s, p.stem? = some s ∧ Text.lower s = key name := by
  have hstem : p.stem?.any (Text.sameLetters · name.name) :=
    List.find?_some (p := fun p : Path => p.stem?.any (Text.sameLetters · name.name)) hp
  obtain ⟨s, hs, hsame⟩ := (Option.any_eq_true _ _).1 hstem
  exact ⟨List.mem_of_find?_eq_some hp, s, hs, Text.sameLetters_iff.1 hsame⟩

/-- The path that a name leads to is read when the name is remembered. -/
theorem isUnread_of_referencePath? {name : AssemblyName} {p : Path}
    (hp : u.referencePath? name = some p) (v : Universe) :
    v.isUnread p = (v.remembered? (key name)).isNone := by
  obtain ⟨-, s, hs, hkey⟩ := stem_of_referencePath? hp
  rw [isUnread, hs, Option.any_some, hkey]

theorem Recalls.unreadCount_le (h : u.Recalls v) : v.unreadCount ≤ u.unreadCount := by
  rw [unreadCount, unreadCount, h.paths]
  exact List.countP_mono_left fun p _ hp => h.isUnread hp

theorem Grows.unreadCount_le (h : Grows R u v) : v.unreadCount ≤ u.unreadCount :=
  h.recalls.unreadCount_le

theorem unreadCount_pos {name : AssemblyName} {p : Path} (hp : u.referencePath? name = some p)
    (hu : u.remembered? (key name) = none) : 0 < u.unreadCount := by
  refine List.countP_pos_iff.2 ⟨p, List.mem_of_find?_eq_some hp, ?_⟩
  rw [isUnread_of_referencePath? hp, hu]
  rfl

theorem countP_lt {α : Type} {p q : α → Bool} {xs : List α} (h : ∀ x ∈ xs, p x → q x) {x : α}
    (hx : x ∈ xs) (hp : ¬p x) (hq : q x) : xs.countP p < xs.countP q := by
  obtain ⟨before, behind, rfl⟩ := List.append_of_mem hx
  have hbefore : before.countP p ≤ before.countP q :=
    List.countP_mono_left fun y hy => h y (List.mem_append_left _ hy)
  have hbehind : behind.countP p ≤ behind.countP q :=
    List.countP_mono_left fun y hy => h y (List.mem_append_right _ (List.mem_cons_of_mem _ hy))
  rw [List.countP_append, List.countP_append, List.countP_cons_of_neg hp,
    List.countP_cons_of_pos hq]
  omega

/-- A name that a reference path is found for leaves less to read. -/
theorem Recalls.unreadCount_lt (h : u.Recalls v) {name : AssemblyName} {p : Path}
    (hp : u.referencePath? name = some p) (hu : u.remembered? (key name) = none)
    (hv : (v.remembered? (key name)).isSome) : v.unreadCount < u.unreadCount := by
  rw [unreadCount, unreadCount, h.paths]
  refine countP_lt (fun q _ hq => h.isUnread hq) (List.mem_of_find?_eq_some hp) ?_ ?_
  · rw [isUnread_of_referencePath? hp, Option.isNone_iff_eq_none]
    exact Option.isSome_iff_ne_none.1 hv
  · rw [isUnread_of_referencePath? hp, hu]
    rfl

theorem Grows.unreadCount_lt (h : Grows R u v) {name : AssemblyName} {p : Path}
    (hp : u.referencePath? name = some p) (hu : u.remembered? (key name) = none)
    {entry : Option AssemblyId} (hv : v.remembered? (key name) = some entry) :
    v.unreadCount < u.unreadCount :=
  h.recalls.unreadCount_lt hp hu (by rw [hv]; rfl)

end Universe

end ApiEvolution
