import ApiEvolution.Proofs.Surface.Passage
import ApiEvolution.Proofs.Universe.Growing

/-!
# Universes that are sound

A universe is `Sound` in a world if what it remembers is there: a simple name that leads nowhere
leads nowhere in the world, and an assembly that was read mirrors the one in the world, with the
references that are bound already answered by what they reach there. The references of an assembly
are all answered unless it is among the pending ones.
-/

namespace ApiEvolution

namespace World

variable (w : World) (u : Universe)

/-- The reference `t'` is `t` with its binding. Bound ones stay. A reference is not marked as
unresolved if it can be looked up without any shortcut; but it may be bound to what is reached by
exported types that are bound already. -/
inductive Answered (t : TypeRef) : TypeRef → Prop
  | kept (hbound : t.isBound) : Answered t t
  | unresolved (hbound : t.isBound = false) (hnone : w.lookup t = none) :
    Answered t (t.withBinding .unresolved)
  | resolved {x : Place} {id : AssemblyId} (hbound : t.isBound = false)
    (hx : w.Reaches u.Shortcuts (Universe.maxForwards + 1) t x) (hid : u.idOf x.key = some id) :
    Answered t (t.withBinding (.resolved ⟨id, x.found.position⟩ x.found.type.descriptor))

/-- The reference `t'` is `t`, or `t` with its binding. -/
def Refers (t t' : TypeRef) : Prop :=
  t' = t ∨ w.Answered u t t'

/-- The module `n` is `m` with its references answered. -/
structure ModuleSettled (m n : Module) : Prop where
  name : n.name = m.name
  types : Replaced (w.Answered u) m.types n.types
  exported : List.Forall₂ (w.Answered u) m.exported n.exported

/-- The assembly `b` is `a` with its references answered. -/
structure Settled (a b : Assembly) : Prop where
  name : b.name = a.name
  modules : List.Forall₂ (w.ModuleSettled u) a.modules b.modules

variable {w u} {v : Universe} {t t' : TypeRef} {m n : Module} {a b : Assembly}

theorem target?_of_detached (ht : t.detached = t) : t.target? = none := by
  obtain ⟨space, name, scope, binding⟩ := t
  cases binding with
  | resolved id d => simp [TypeRef.detached, Binding.detached] at ht
  | _ => rfl

/-- What was answered stays so. -/
theorem Answered.mono (h : u.Precedes v) (ht : w.Answered u t t') : w.Answered v t t' := by
  cases ht with
  | kept hbound => exact .kept hbound
  | unresolved hbound hnone => exact .unresolved hbound hnone
  | resolved hbound hx hid =>
    exact .resolved hbound (hx.mono fun _ _ _ hknown => h.shortcuts hknown) (h.idOf hid)

theorem Refers.mono (h : u.Precedes v) (ht : w.Refers u t t') : w.Refers v t t' :=
  ht.imp_right (Answered.mono h)

theorem Refers.same_place (h : w.Refers u t t') :
    t'.space = t.space ∧ t'.name = t.name ∧ t'.scope = t.scope := by
  rcases h with rfl | h
  · exact ⟨rfl, rfl, rfl⟩
  · cases h <;> exact ⟨rfl, rfl, rfl⟩

theorem Refers.same_assembly (h : w.Refers u t t') : t'.assembly = t.assembly := by
  obtain ⟨space, name, scope, binding⟩ := t
  obtain ⟨space', name', scope', binding'⟩ := t'
  obtain ⟨-, -, hscope⟩ := h.same_place
  exact congrArg Scope.assemblyName hscope

/-- A reference that was not bound may be replaced by what it is bound to. -/
theorem Answered.later (h : w.Answered u t t') (ht : t.detached = t) : t.Later t' := by
  obtain ⟨hspace, hname, -⟩ := Refers.same_place (.inr h)
  exact .inr ⟨target?_of_detached ht, hspace, hname⟩

/-- A reference that is bound to a definition was bound to what it reaches. -/
theorem Refers.resolved (h : w.Refers u t t') (ht : t.detached = t) {id : DefinitionId}
    {d : TypeRef} (hd : t'.binding = .resolved id d) : ∃ x,
      w.Reaches u.Shortcuts (Universe.maxForwards + 1) t x ∧
      u.idOf x.key = some id.assembly ∧ id.position = x.found.position ∧
      d = x.found.type.descriptor := by
  have hno : t.binding ≠ .resolved id d := fun hno => by
    have hnone := target?_of_detached ht
    rw [TypeRef.target?, hno] at hnone
    cases hnone
  rcases h with rfl | h
  · exact absurd hd hno
  · cases h with
    | kept => exact absurd hd hno
    | unresolved => cases hd
    | resolved _ hx hid =>
      cases hd
      exact ⟨_, hx, hid, rfl, rfl⟩

theorem ModuleSettled.mono (h : u.Precedes v) (hm : w.ModuleSettled u m n) :
    w.ModuleSettled v m n :=
  ⟨hm.name, hm.types.imp fun _ _ => .mono h, hm.exported.imp fun _ _ => .mono h⟩

theorem Settled.mono (h : u.Precedes v) (hb : w.Settled u a b) : w.Settled v a b :=
  ⟨hb.name, hb.modules.imp fun _ _ => .mono h⟩

theorem ModuleSettled.outlines (hm : w.ModuleSettled u m n) :
    n.types.map TypeDefinition.outline = m.types.map TypeDefinition.outline := by
  refine hm.types.unchanged (F := List.map TypeDefinition.outline) fun f ts => ?_
  refine (List.map_map ..).trans ?_
  exact List.map_congr_left fun t _ => t.outline_rebind f

theorem ModuleSettled.references (hm : w.ModuleSettled u m n) :
    List.Forall₂ (w.Answered u) (m.types.flatMap TypeDefinition.refs ++ m.exported)
      (n.types.flatMap TypeDefinition.refs ++ n.exported) :=
  List.rel_append hm.types.related hm.exported

theorem Settled.mirrors (h : w.Settled u a b) : a.Mirrors (w.Refers u) b :=
  ⟨h.name, h.modules.imp fun _ _ hm => ⟨hm.outlines, hm.exported.imp fun _ _ => .inr⟩⟩

/-- Every reference answers one that was read. -/
theorem Settled.exists_answered (h : w.Settled u a b) {r : TypeRef} (hr : r ∈ b.references) :
    ∃ r₀ ∈ a.references, w.Answered u r₀ r := by
  obtain ⟨n, hn, hr⟩ := Assembly.mem_references.1 hr
  obtain ⟨m, hm, hmn⟩ := exists_of_forall₂ h.modules hn
  rw [TypeDefinition.refsOf_eq] at hr
  obtain ⟨r₀, hr₀, hrel⟩ := exists_of_forall₂ hmn.references hr
  rw [← TypeDefinition.refsOf_eq] at hr₀
  exact ⟨r₀, Assembly.mem_references.2 ⟨m, hm, hr₀⟩, hrel⟩

/-- Every reference that was read is answered. -/
theorem Settled.exists_answer (h : w.Settled u a b) {r : TypeRef} (hr : r ∈ a.references) :
    ∃ r', w.Answered u r r' := by
  obtain ⟨m, hm, hr⟩ := Assembly.mem_references.1 hr
  obtain ⟨n, -, hmn⟩ := exists_of_forall₂ (R := flip (w.ModuleSettled u)) h.modules.flip hm
  rw [TypeDefinition.refsOf_eq] at hr
  obtain ⟨r', -, hrel⟩ := exists_of_forall₂ (R := flip (w.Answered u)) hmn.references.flip hr
  exact ⟨r', hrel⟩

end World

/-! ## Soundness -/

namespace Universe

/-- Nothing is remembered that is not so in the world `w`, in which reference paths lead to what is
read from them. -/
structure Sound (w : World) (read : Reader) (pending : List AssemblyId) (u : Universe) : Prop where
  absent : ∀ key, u.remembered? key = some none → w key = none
  present : ∀ key id, u.remembered? key = some (some id) →
    ∃ a l, w key = some a ∧ u.assembly? id = some l ∧ a.Mirrors (w.Refers u) l.assembly
  settled : ∀ key id a l, u.remembered? key = some (some id) → w key = some a →
    u.assembly? id = some l → id ∉ pending → w.Settled u a l.assembly
  apart : ∀ key key' id, u.remembered? key = some (some id) →
    u.remembered? key' = some (some id) → key' = key
  named : ∀ l ∈ u.assemblies, ∃ key, u.remembered? key = some (some l.id)
  fresh : ∀ l ∈ u.assemblies, l.id.context = u.context ∧ l.id.number < u.next
  unread : ∀ name, u.remembered? (key name) = none →
    w (key name) = (u.referencePath? name).bind fun p => (read p).toOption

/-! ## Steps -/

variable {w : World} {read : Reader} {pending : List AssemblyId} {u v : Universe}

/-- Primary assemblies, reports and readings have no part in it. -/
theorem Sound.of_eq (h : u.Sound w read pending) (hcontext : v.context = u.context)
    (hpaths : v.referencePaths = u.referencePaths) (hnames : v.names = u.names)
    (hassemblies : v.assemblies = u.assemblies) (hnext : v.next = u.next) :
    v.Sound w read pending := by
  obtain ⟨context, paths, names, assemblies, primaries, next, reads, diagnostics⟩ := v
  cases hcontext
  cases hpaths
  cases hnames
  cases hassemblies
  cases hnext
  -- what references may have become depends on the universe, so it has to be carried over
  have hle : u.Precedes ⟨u.context, u.referencePaths, u.names, u.assemblies, primaries, u.next, reads,
      diagnostics⟩ := ⟨rfl, rfl, fun _ _ he => he, fun _ a ha => ⟨a, ha, .refl a⟩⟩
  refine ⟨h.absent, fun key id he => ?_, fun key id a l he ha hl hp => ?_, h.apart, h.named, h.fresh,
    h.unread⟩
  · obtain ⟨a, l, ha, hl, hm⟩ := h.present key id he
    exact ⟨a, l, ha, hl, hm.imp fun _ _ hr => hr.mono hle⟩
  · exact (h.settled key id a l he ha hl hp).mono hle

theorem Sound.report (h : u.Sound w read pending) (d : Diagnostic) :
    (u.report d).Sound w read pending :=
  h.of_eq rfl rfl rfl rfl rfl

theorem Sound.noteRead (h : u.Sound w read pending) (p : Path) :
    (u.noteRead p).Sound w read pending :=
  h.of_eq rfl rfl rfl rfl rfl

/-- A simple name that leads nowhere may be remembered as such. -/
theorem Sound.rememberNone (h : u.Sound w read pending) {k : String} (hk : u.remembered? k = none)
    (hw : w k = none) : (u.remember k none).Sound w read pending := by
  have hext := extends_remember hk none
  have hold : ∀ key id, (u.remember k none).remembered? key = some (some id) →
      u.remembered? key = some (some id) := by
    intro key id he
    rw [remembered?_remember] at he
    split at he
    · cases he
    · exact he
  refine ⟨fun key he => ?_, fun key id he => ?_, fun key id a l he ha hl hp => ?_,
    fun key key' id he he' => h.apart key key' id (hold key id he) (hold key' id he'),
    fun l hl => (h.named l hl).imp fun key he => hext.remembers key _ he, h.fresh,
    fun name he => h.unread name (remembered?_eq_none_of_remember he)⟩
  · rw [remembered?_remember] at he
    split at he
    · next e => rw [e, hw]
    · exact h.absent key he
  · obtain ⟨a, l, ha, hl, hm⟩ := h.present key id (hold key id he)
    exact ⟨a, l, ha, hl, hm.imp fun _ _ hr => hr.mono hext.precedes⟩
  · exact (h.settled key id a l (hold key id he) ha hl hp).mono hext.precedes

/-- The number that an assembly is given is new. -/
theorem Sound.assembly?_next (h : u.Sound w read pending) :
    u.assembly? ⟨u.context, u.next⟩ = none := by
  refine List.find?_eq_none.2 fun l hl he => ?_
  simp only [beq_iff_eq] at he
  have hlt := (h.fresh l hl).2
  rw [he] at hlt
  exact Nat.lt_irrefl _ hlt

theorem Sound.idOf_ne_next (h : u.Sound w read pending) {key : String} {id : AssemblyId}
    (hid : u.remembered? key = some (some id)) : id ≠ ⟨u.context, u.next⟩ := by
  obtain ⟨a, l, -, hl, -⟩ := h.present key id hid
  rintro rfl
  rw [h.assembly?_next] at hl
  cases hl

/-- An assembly that was just read is kept under a number of its own. -/
theorem Sound.assembly?_takeIn (h : u.Sound w read pending) (k : String) (a : Assembly) :
    (u.takeIn k a).2.assembly? ⟨u.context, u.next⟩ = some ⟨⟨u.context, u.next⟩, a⟩ := by
  have hfind : (u.takeIn k a).2.assembly? ⟨u.context, u.next⟩ =
      (u.assemblies ++ [(⟨⟨u.context, u.next⟩, a⟩ : Loaded)]).find? (·.id == ⟨u.context, u.next⟩) :=
    rfl
  rw [hfind, List.find?_append, ← assembly?, h.assembly?_next]
  simp

/-- An assembly that was just read is remembered, with all its references still to be bound. -/
theorem Sound.takeIn (h : u.Sound w read pending) {k : String} {a : Assembly}
    (hk : u.remembered? k = none) (hw : w k = some a) :
    (u.takeIn k a).2.Sound w read (⟨u.context, u.next⟩ :: pending) := by
  have hext : u.Extends (u.takeIn k a).2 := extends_takeIn hk a
  have hnew := h.assembly?_takeIn k a
  refine ⟨fun key he => ?_, fun key id he => ?_, fun key id b l he hb hl hp => ?_,
    fun key key' id he he' => ?_, fun l hl => ?_, fun l hl => ?_,
    fun name he => h.unread name (remembered?_eq_none_of_remember he)⟩
  · rw [remembered?_takeIn] at he
    split at he
    · cases he
    · exact h.absent key he
  · rw [remembered?_takeIn] at he
    split at he
    · next e =>
      cases he
      subst e
      refine ⟨a, _, hw, hnew, rfl, ?_⟩
      exact List.forall₂_same.2 fun m _ => ⟨rfl, List.forall₂_same.2 fun _ _ => .inl rfl⟩
    · obtain ⟨b, ⟨id', c⟩, hb, hl, hm⟩ := h.present key id he
      obtain rfl : id' = id := assembly?_id hl
      exact ⟨b, _, hb, hext.assembly? hl, hm.imp fun _ _ hr => hr.mono hext.precedes⟩
  · rw [remembered?_takeIn] at he
    split at he
    · cases he
      exact absurd List.mem_cons_self hp
    · obtain ⟨-, ⟨id', c⟩, -, hl', -⟩ := h.present key id he
      obtain rfl : id' = id := assembly?_id hl'
      obtain rfl : l = ⟨id', c⟩ := Option.some.inj (hl.symm.trans (hext.assembly? hl'))
      have hsettled := h.settled key id' b _ he hb hl' fun hmem => hp (List.mem_cons_of_mem _ hmem)
      exact hsettled.mono hext.precedes
  · rw [remembered?_takeIn] at he he'
    split at he <;> split at he'
    · next e e' => exact e'.trans e.symm
    · cases he
      exact absurd rfl (h.idOf_ne_next he')
    · cases he'
      exact absurd rfl (h.idOf_ne_next he)
    · exact h.apart key key' id he he'
  · rcases List.mem_append.1 hl with hl | hl
    · exact (h.named l hl).imp fun key he => hext.remembers key _ he
    · rw [List.mem_singleton.1 hl]
      exact ⟨k, by rw [remembered?_takeIn, if_pos rfl]⟩
  · rcases List.mem_append.1 hl with hl | hl
    · exact ⟨(h.fresh l hl).1, Nat.lt_succ_of_lt (h.fresh l hl).2⟩
    · rw [List.mem_singleton.1 hl]
      exact ⟨rfl, Nat.lt_succ_self _⟩

/-- An assembly may be replaced by a later one that mirrors the same assembly. It may even cease to
be pending if it is settled. -/
theorem Sound.update {pending' : List AssemblyId} (h : u.Sound w read pending) {k : String}
    {id : AssemblyId} {a : Assembly} {f : Assembly → Assembly}
    (hk : u.remembered? k = some (some id)) (ha : w k = some a)
    (hlater : ∀ b, u.assembly? id = some ⟨id, b⟩ → b.Later (f b))
    (hf : ∀ b, a.Mirrors (w.Refers u) b → a.Mirrors (w.Refers u) (f b))
    (hpending : ∀ id', id' ∈ pending → id' ≠ id → id' ∈ pending')
    (hid : id ∉ pending' → ∀ b, w.Settled u a (f b)) :
    (u.update id f).Sound w read pending' := by
  have hle : u.Precedes (u.update id f) := (advances_update hlater).precedes
  refine ⟨h.absent, fun key id' he => ?_, fun key id' b l he hb hl hp => ?_, h.apart, fun l hl => ?_,
    fun l hl => ?_, h.unread⟩
  · obtain ⟨b, l, hb, hl, hm⟩ := h.present key id' he
    rw [assembly?_update, hl, Option.map_some]
    -- an assembly is remembered under one name only, so the one that changes stands for `a`
    by_cases e : id' = id
    · subst e
      obtain rfl := h.apart k key id' hk he
      rw [ha] at hb
      cases hb
      refine ⟨a, _, ha, rfl, ?_⟩
      rw [if_pos rfl]
      exact (hf _ hm).imp fun _ _ hr => hr.mono hle
    · refine ⟨b, _, hb, rfl, ?_⟩
      rw [if_neg e]
      exact hm.imp fun _ _ hr => hr.mono hle
  · rw [assembly?_update] at hl
    obtain ⟨l', hl', rfl⟩ := Option.map_eq_some_iff.1 hl
    by_cases e : id' = id
    · subst e
      obtain rfl := h.apart k key id' hk he
      rw [ha] at hb
      cases hb
      rw [if_pos rfl]
      exact (hid hp _).mono hle
    · rw [if_neg e]
      have hsettled := h.settled key id' b l' he hb hl' fun hmem => hp (hpending id' hmem e)
      exact hsettled.mono hle
  · obtain ⟨l', hl', rfl⟩ := List.mem_map.1 hl
    have hnamed := h.named l' hl'
    split <;> exact hnamed
  · obtain ⟨l', hl', rfl⟩ := List.mem_map.1 hl
    have hfresh := h.fresh l' hl'
    split <;> exact hfresh

end Universe

end ApiEvolution
