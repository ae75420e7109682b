import ApiEvolution.Proofs.Universe.Runs
import ApiEvolution.Proofs.Universe.Soundness

/-!
# Binding finds what there is

Resolution in a sound universe finds what is reached in the world, however far other assemblies are
bound meanwhile and whatever is read on the way: first for one assembly name (`Resolves`), then for
one reference (`Follows`, `resolveWithin_follows`), then for all references of an assembly
(`bindAssembly_run`), and back to assembly names, since an assembly that is read on demand has its
references bound (`resolveAssemblyWithin_resolves`).
-/

namespace ApiEvolution

namespace World

/-- The definition was found at the place. -/
structure Resolved (u : Universe) (x : Place) (d : Definition) : Prop where
  id : u.idOf x.key = some d.id.assembly
  position : d.id.position = x.found.position
  outline : d.type.outline = x.found.type.outline

/-- What is nested in the definition is nested in what stands at the place. -/
theorem Resolved.nested? {u : Universe} {x : Place} {d : Definition} (h : Resolved u x d)
    (space name : String) : Option.Rel (Resolved u) (x.nested? space name) (d.nested? space name) := by
  have houtline : Found.outline ⟨d.id.position, d.type⟩ = x.found.outline := by
    rw [Found.outline, Found.outline, h.position, h.outline]
  have hnested := congrArg (Found.nested? · space name) houtline
  simp only [← Found.nested?_outline] at hnested
  rw [Place.nested?, Definition.nested?]
  generalize Found.nested? ⟨d.id.position, d.type⟩ space name = f at hnested ⊢
  generalize x.found.nested? space name = g at hnested ⊢
  cases f with
  | none =>
    rw [Option.map_none] at hnested
    rw [Option.map_eq_none_iff.1 hnested.symm]
    exact .none
  | some f =>
    rw [Option.map_some] at hnested
    obtain ⟨g, rfl, hg⟩ := Option.map_eq_some_iff.1 hnested.symm
    obtain ⟨hposition, hout⟩ := Found.mk.inj hg
    exact .some ⟨h.id, hposition.symm, hout.symm⟩

/-- No reference in the world has been looked up. -/
def Fresh (w : World) : Prop :=
  ∀ key a, w key = some a → ∀ t ∈ a.references, t.detached = t

/-- The reference `t`, which by now may have become `t'`, leads to the place: it is reached, or `t'`
is bound. -/
def Leads (w : World) (hops : Nat) (t t' : TypeRef) (u : Universe) (x : Place) : Prop :=
  w.Reaches u.Shortcuts hops t x ∨ t'.target?.isSome ∧ ∃ n, w.lookupWithin n t = some x

/-- What a reference leads to that has not been looked up is reached. -/
theorem reaches_of_leads {w : World} {hops : Nat} {t : TypeRef} {u : Universe} {x : Place}
    (ht : t.detached = t) (hx : w.Leads hops t t u x) : w.Reaches u.Shortcuts hops t x := by
  rcases hx with hx | ⟨htarget, -⟩
  · exact hx
  · rw [target?_of_detached ht] at htarget
    cases htarget

end World

namespace Universe

variable {w : World} {read : Reader} {pending : List AssemblyId} {u : Universe}

/-! ## References that are bound -/

/-- What stands at a place of the world has been kept if its assembly was read. -/
theorem Sound.definition? (h : u.Sound w read pending) {x : Place} {id : AssemblyId}
    (hid : u.idOf x.key = some id) (hx : w.Located x) : ∃ type,
      u.definition? ⟨id, x.found.position⟩ = some type ∧ type.outline = x.found.type.outline := by
  obtain ⟨a, l, ha, hl, hm⟩ := h.present x.key id (Option.join_eq_some_iff.1 hid)
  obtain ⟨b, hb, hat⟩ := hx
  rw [ha] at hb
  cases hb
  have houtline := hm.definitionAt? x.found.position
  rw [hat, Option.map_some] at houtline
  obtain ⟨type, htype, hsame⟩ := Option.map_eq_some_iff.1 houtline
  exact ⟨type, by rw [Universe.definition?, hl, Option.bind_some, htype], hsame⟩

/-- A reference is found bound if it is, and then to what it leads to. -/
theorem Sound.bound? (h : u.Sound w read pending) {t t' : TypeRef} (ht : t.detached = t)
    (hr : w.Refers u t t') :
    match u.bound? t'.binding with
    | none => t'.target? = none
    | some d => t'.target?.isSome ∧ ∃ n x, w.lookupWithin n t = some x ∧ World.Resolved u x d := by
  obtain ⟨space, name, scope, binding⟩ := t'
  cases binding with
  | resolved id d =>
    obtain ⟨x, hx, hid, hposition, rfl⟩ := hr.resolved ht rfl
    obtain ⟨n, hx⟩ := hx.lookup
    obtain ⟨type, htype, houtline⟩ := h.definition? hid (World.located_of_lookupWithin hx)
    obtain ⟨assembly, position⟩ := id
    obtain rfl : position = x.found.position := hposition
    have hbound : u.bound? (.resolved ⟨assembly, x.found.position⟩ x.found.type.descriptor) =
        some ⟨⟨assembly, x.found.position⟩, type⟩ := by
      rw [Universe.bound?, htype, Option.map_some]
    simp only [TypeRef.binding, hbound]
    exact ⟨rfl, n, x, hx, hid, rfl, houtline⟩
  | _ => rfl

/-! ## Resolution -/

/-- Finds the assemblies of the world, if no more than `bound` are still to be read. -/
def Resolves (w : World) (read : Reader) (bound : Nat) (resolve : AssemblyResolver) : Prop :=
  ∀ pending (u : Universe) name, u.Sound w read pending → u.unreadCount ≤ bound →
    ∃ res v, (resolve name).run u = (res, v) ∧ v.Sound w read pending ∧ u.Extends v ∧
      match w (key name) with
      | none => res = none
      | some _ => ∃ l, res = some l ∧ v.idOf (key name) = some l.id ∧ v.assembly? l.id = some l

/-- The step finds a definition at a place that is led to, if any place is led to before it. -/
def Finds (w : World) (read : Reader) (pending : List AssemblyId) (leads : Universe → Place → Prop)
    (u : Universe) (step : UniverseM (Option Definition)) : Prop :=
  ∃ res v, step.run u = (res, v) ∧ v.Sound w read pending ∧ u.Extends v ∧
    (∀ d, res = some d → ∃ x, leads v x ∧ World.Resolved v x d) ∧ (∀ x, leads u x → res.isSome)

/-- Finds what a reference leads to by fewer than `hops` exported types that are followed. -/
def Follows (w : World) (read : Reader) (bound hops : Nat)
    (follow : TypeRef → UniverseM (Option Definition)) : Prop :=
  ∀ pending (u : Universe) t t', u.Sound w read pending → u.unreadCount ≤ bound → t.detached = t →
    w.Refers u t t' → Finds w read pending (w.Leads hops t t') u (follow t')

namespace Finds

variable {v : Universe} {leads leads' : Universe → Place → Prop}
  {step step' : UniverseM (Option Definition)}

/-- There is such a place. -/
theorem found (h : u.Sound w read pending) {x : Place} {d : Definition} (hx : leads u x)
    (hd : World.Resolved u x d) : Finds w read pending leads u (pure (some d)) := by
  refine ⟨some d, u, rfl, h, .refl u, fun d' hd' => ⟨x, hx, ?_⟩, fun _ _ => rfl⟩
  cases hd'
  exact hd

/-- There is no such place. -/
theorem nothing (h : u.Sound w read pending) (hno : ∀ x, ¬leads u x) :
    Finds w read pending leads u (pure none) :=
  ⟨none, u, rfl, h, .refl u, fun _ hd => (by cases hd), fun x hx => absurd hx (hno x)⟩

theorem imp (h : Finds w read pending leads u step)
    (hsound : ∀ v x, u.Extends v → leads v x → leads' v x)
    (hcomplete : ∀ x, leads' u x → leads u x) : Finds w read pending leads' u step := by
  obtain ⟨res, v, hrun, hv, hext, hfound, hany⟩ := h
  exact ⟨res, v, hrun, hv, hext, fun d hd => (hfound d hd).imp fun x => .imp_left (hsound v x hext),
    fun x hx => hany x (hcomplete x hx)⟩

/-- The step goes on in a later state. -/
theorem after (hext : u.Extends v) (hrun : step.run u = step'.run v)
    (hleads : ∀ x, leads u x → leads v x) (h : Finds w read pending leads v step') :
    Finds w read pending leads u step := by
  obtain ⟨res, v', hrun', hv', hext', hfound, hany⟩ := h
  exact ⟨res, v', hrun.trans hrun', hv', hext.trans hext', hfound, fun x hx => hany x (hleads x hx)⟩

end Finds

section Steps

variable {bound hops : Nat} {resolve : AssemblyResolver}
  {follow : TypeRef → UniverseM (Option Definition)}

/-- A reference into an assembly leads where the exported type does that leads on there. -/
theorem leads_iff_reaches {a : AssemblyName} {b : Assembly} {l : Loaded} {space name : String}
    {e e' : TypeRef} {x : Place} (hb : w (key a) = some b) (he : b.Forwards space name e)
    (hid : u.idOf (key a) = some l.id) (hl : u.assembly? l.id = some l)
    (he' : l.assembly.findExported? space name = some e') (binding : Binding) :
    w.Leads hops e e' u x ↔
      w.Reaches u.Shortcuts (hops + 1) (.mk space name (.assembly a) binding) x := by
  rw [World.reaches_iff_of_forwards hb he, shortcuts_iff hid hl he', World.Leads]

/-- The types that are found in an assembly are those that are reached there. -/
theorem resolveInAssembly_reaches (hfollow : Follows w read bound hops follow) (hfresh : w.Fresh)
    (h : u.Sound w read pending) (hu : u.unreadCount ≤ bound) {a : AssemblyName} {l : Loaded}
    (hid : u.idOf (key a) = some l.id) (hl : u.assembly? l.id = some l) (space name : String)
    (binding : Binding) :
    Finds w read pending
      (fun u => w.Reaches u.Shortcuts (hops + 1) (.mk space name (.assembly a) binding)) u
      (resolveInAssembly follow space name l) := by
  obtain ⟨b, l', hb, hl', hm⟩ := h.present _ _ (Option.join_eq_some_iff.1 hid)
  obtain rfl : l = l' := Option.some.inj (hl.symm.trans hl')
  -- `l` may be bound in part; what is found in it is read off the assembly that it mirrors
  have hfind := hm.find? space name
  have hexported := hm.findExported? (fun _ _ hr => ⟨hr.same_place.1, hr.same_place.2.1⟩) space name
  unfold resolveInAssembly
  cases hf : b.find? space name with
  | some f =>
    rw [hf, Option.map_some] at hfind
    obtain ⟨f', hf', hsame⟩ := Option.map_eq_some_iff.1 hfind
    obtain ⟨hposition, houtline⟩ := Found.mk.inj hsame
    rw [hf']
    exact .found h (.own hb hf) ⟨hid, hposition, houtline⟩
  | none =>
    rw [hf, Option.map_none] at hfind
    rw [Option.map_eq_none_iff.1 hfind]
    generalize he : b.findExported? space name = e at hexported
    generalize he' : l.assembly.findExported? space name = e' at hexported ⊢
    cases hexported with
    | none =>
      refine .nothing h fun x => World.not_reaches_assembly hb hf fun e hforwards => ?_
      rw [hforwards.exported] at he
      cases he
    | @some e e' hr =>
      simp only [hr.same_assembly, hm.name]
      split
      · next hback =>
        refine .nothing h fun x => World.not_reaches_assembly hb hf fun t hforwards => ?_
        obtain rfl : t = e := Option.some.inj (hforwards.exported.symm.trans he)
        rw [hforwards.away] at hback
        cases hback
      · next haway =>
        have hforwards : b.Forwards space name e := ⟨hf, he, Bool.eq_false_iff.2 haway⟩
        have ht : e.detached = e :=
          hfresh _ b hb e (List.mem_append_right _ (List.mem_of_find?_eq_some he))
        refine (hfollow pending u e e' h hu ht hr).imp (fun v x hext => ?_) fun x => ?_
        · exact (leads_iff_reaches hb hforwards (hext.idOf hid) (hext.assembly? hl) he' binding).1
        · exact (leads_iff_reaches hb hforwards hid hl he' binding).2

mutual

theorem resolveStep_reaches (hresolve : Resolves w read bound resolve)
    (hfollow : Follows w read bound hops follow) (hfresh : w.Fresh) : (t : TypeRef) →
    ∀ pending (u : Universe) t', u.Sound w read pending → u.unreadCount ≤ bound → t.detached = t →
    w.Refers u t t' →
    Finds w read pending (w.Leads (hops + 1) t t') u (resolveStep resolve follow t')
  | .mk space name scope binding => by
    intro pending u t' h hu ht hr
    have hbound := h.bound? ht hr
    obtain ⟨space', name', scope', binding'⟩ := t'
    obtain ⟨hspace, hname, hscope⟩ := hr.same_place
    obtain rfl : space = space' := hspace.symm
    obtain rfl : name = name' := hname.symm
    obtain rfl : scope = scope' := hscope.symm
    have hrun : (resolveStep resolve follow (.mk space name scope binding')).run u = _ :=
      resolveStep_run space name scope binding' u
    simp only [TypeRef.binding] at hbound
    cases hb : u.bound? binding' with
    | some d =>
      rw [hb] at hbound hrun
      obtain ⟨htarget, n, x, hx, hd⟩ := hbound
      exact .after (.refl u) hrun (fun _ => id) (.found h (.inr ⟨htarget, n, hx⟩) hd)
    | none =>
      rw [hb] at hbound hrun
      have hscope := resolveScope_reaches hresolve hfollow hfresh space name binding scope pending u h
        hu (TypeRef.mk.inj ht).2.2.1
      refine .after (.refl u) hrun (fun _ => id) (hscope.imp (fun _ _ _ => .inl) fun x hx => ?_)
      rcases hx with hx | ⟨htarget, -⟩
      · exact hx
      · have hnone : (TypeRef.mk space name scope binding').target? = none := hbound
        rw [hnone] at htarget
        cases htarget

theorem resolveScope_reaches (hresolve : Resolves w read bound resolve)
    (hfollow : Follows w read bound hops follow) (hfresh : w.Fresh) (space name : String)
    (binding : Binding) : (s : Scope) → ∀ pending (u : Universe), u.Sound w read pending →
    u.unreadCount ≤ bound → s.detached = s →
    Finds w read pending (fun u => w.Reaches u.Shortcuts (hops + 1) (.mk space name s binding)) u
      (resolveScope resolve follow space name s)
  | .assembly a => by
    intro pending u h hu _
    obtain ⟨found, v, hrun, hv, hext, hfound⟩ := hresolve pending u a h hu
    have hstep : (resolveScope resolve follow space name (.assembly a)).run u = _ :=
      resolveScope_assembly_run space name a u
    have hleads : ∀ x, w.Reaches u.Shortcuts (hops + 1) (.mk space name (.assembly a) binding) x →
        w.Reaches v.Shortcuts (hops + 1) (.mk space name (.assembly a) binding) x :=
      fun x hx => hx.mono fun _ _ _ hknown => hext.precedes.shortcuts hknown
    rw [hrun] at hstep
    cases ha : w (key a) with
    | none =>
      rw [ha] at hfound
      subst hfound
      refine .after hext hstep hleads (.nothing hv fun x hx => ?_)
      obtain ⟨b, hb, -⟩ := World.reaches_assembly_iff.1 hx
      rw [ha] at hb
      cases hb
    | some b =>
      rw [ha] at hfound
      obtain ⟨l, rfl, hid, hl⟩ := hfound
      have hunread := Nat.le_trans hext.unreadCount_le hu
      exact .after hext hstep hleads
        (resolveInAssembly_reaches hfollow hfresh hv hunread hid hl space name binding)
  | .nested d => by
    intro pending u h hu hs
    have hd : d.detached = d := Scope.nested.inj hs
    obtain ⟨res, v, hrun, hv, hext, hsound, hcomplete⟩ :=
      resolveStep_reaches hresolve hfollow hfresh d pending u d h hu hd (.inl rfl)
    have hstep : (resolveScope resolve follow space name (.nested d)).run u = _ :=
      resolveScope_nested_run space name d u
    rw [hrun] at hstep
    cases res with
    | none =>
      refine ⟨none, v, hstep, hv, hext, fun _ hno => (by cases hno), fun x hx => ?_⟩
      obtain ⟨y, hy, -⟩ := World.reaches_nested_iff.1 hx
      exact hcomplete y (.inl hy)
    | some e =>
      obtain ⟨z, hz, he⟩ := hsound e rfl
      have hz := World.reaches_of_leads hd hz
      have hrel := he.nested? space name
      refine ⟨_, v, hstep, hv, hext, fun f hf => ?_, fun x hx => ?_⟩
      · rw [hf] at hrel
        generalize hx : z.nested? space name = x at hrel
        cases hrel with
        | some hxf => exact ⟨_, .nested hz hx, hxf⟩
      · obtain ⟨y, hy, hx⟩ := World.reaches_nested_iff.1 hx
        obtain rfl : y = z := hy.unique hz
        rw [hx] at hrel
        generalize e.nested? space name = res at hrel ⊢
        cases hrel
        rfl

end

end Steps

section Assemblies

variable {bound : Nat} {resolve : AssemblyResolver}

theorem resolveWithin_follows (hresolve : Resolves w read bound resolve) (hfresh : w.Fresh)
    (hops : Nat) : Follows w read bound hops (resolveWithin resolve hops) := by
  induction hops with
  | zero =>
    intro pending u t t' h hu ht hr
    have hbound := h.bound? ht hr
    have hrun : (resolveWithin resolve 0 t').run u = (u.bound? t'.binding, u) := rfl
    cases hb : u.bound? t'.binding with
    | some d =>
      rw [hb] at hbound hrun
      obtain ⟨htarget, n, x, hx, hd⟩ := hbound
      exact .after (.refl u) hrun (fun _ => id) (.found h (.inr ⟨htarget, n, hx⟩) hd)
    | none =>
      rw [hb] at hbound hrun
      refine .after (.refl u) hrun (fun _ => id) (.nothing h fun x hx => ?_)
      rcases hx with hx | ⟨htarget, -⟩
      · exact World.not_reaches_zero hx
      · rw [hbound] at htarget
        cases htarget
  | succ hops ih =>
    exact fun pending u t t' => resolveStep_reaches hresolve ih hfresh t pending u t'

/-- Resolving a reference that is not bound finds what is reached, and what can be looked up. -/
theorem resolveTypeBy_reaches (hresolve : Resolves w read bound resolve) (hfresh : w.Fresh)
    (h : u.Sound w read pending) (hu : u.unreadCount ≤ bound) {t : TypeRef} (ht : t.detached = t) :
    Finds w read pending (fun u => w.Reaches u.Shortcuts (maxForwards + 1) t) u
      (resolveTypeBy resolve t) := by
  have hfinds :=
    resolveWithin_follows hresolve hfresh (maxForwards + 1) pending u t t h hu ht (.inl rfl)
  exact hfinds.imp (fun _ _ _ => World.reaches_of_leads ht) fun _ => .inl

/-! ## Binding -/

/-- A reference is bound to what is reached, or marked. -/
theorem bindReference_run (hresolve : Resolves w read bound resolve) (hfresh : w.Fresh)
    (h : u.Sound w read pending) (hu : u.unreadCount ≤ bound) {t : TypeRef} (ht : t.detached = t)
    (origin : AssemblyName) : ∃ t' v, (bindReference resolve origin t).run u = (t', v) ∧
      v.Sound w read pending ∧ u.Extends v ∧ w.Answered v t t' := by
  cases hb : t.isBound with
  | true => exact ⟨t, u, bindReference_run_bound hb origin u, h, .refl u, .kept hb⟩
  | false =>
    obtain ⟨res, v, hrun, hv, hext, hsound, hcomplete⟩ :=
      resolveTypeBy_reaches hresolve hfresh h hu ht
    rw [bindReference_run_unbound hb, hrun]
    cases res with
    | some d =>
      obtain ⟨x, hx, hd⟩ := hsound d rfl
      have hdescriptor : d.type.descriptor = x.found.type.descriptor :=
        TypeDefinition.descriptor_eq_of_outline hd.outline
      refine ⟨_, v, rfl, hv, hext, ?_⟩
      have hid : d.id = ⟨d.id.assembly, x.found.position⟩ := by rw [← hd.position]
      rw [hdescriptor, hid]
      exact .resolved hb hx hd.id
    | none =>
      have hnone : w.lookup t = none := by
        cases hx : w.lookup t with
        | none => rfl
        | some x => cases hcomplete x (World.reaches_of_lookupWithin hx)
      exact ⟨_, _, rfl, hv.report _, hext.trans (extends_report v _), .unresolved hb hnone⟩

/-- References are replaced by what they are bound to. -/
def answering (w : World) : Passage Universe where
  le := Extends
  rel := w.Answered
  refl := .refl
  trans := .trans
  mono h hr := hr.mono h.precedes

theorem bindReference_answers (hresolve : Resolves w read bound resolve) (hfresh : w.Fresh)
    {t : TypeRef} (ht : t.detached = t) (origin : AssemblyName) :
    (answering w).Passes (fun u s => u = s ∧ s.Sound w read pending ∧ s.unreadCount ≤ bound)
      (bindReference resolve origin t) t := by
  rintro _ u ⟨rfl, h, hu⟩
  obtain ⟨t', v, hrun, hv, hext, hanswered⟩ := bindReference_run hresolve hfresh h hu ht origin
  rw [Passage.EnsuresFrom, hrun]
  exact ⟨v, hext, ⟨rfl, hv, Nat.le_trans hext.unreadCount_le hu⟩, t', .single hanswered, rfl⟩

theorem traverseAll_run (hresolve : Resolves w read bound resolve) (hfresh : w.Fresh)
    (h : u.Sound w read pending) (hu : u.unreadCount ≤ bound) {ts : List TypeDefinition}
    (hts : ∀ r ∈ TypeDefinition.refsOf ts, r.detached = r) (origin : AssemblyName) :
    ∃ ts' v, (TypeDefinition.traverseAll (bindReference resolve origin) ts).run u = (ts', v) ∧
      v.Sound w read pending ∧ u.Extends v ∧ Replaced (w.Answered v) ts ts' := by
  obtain ⟨_, hext, ⟨rfl, hv, -⟩, ts', hreplaced, hvalue⟩ := Passage.passes_types ts
    (fun r hr => bindReference_answers hresolve hfresh (hts r hr) origin) u u ⟨rfl, h, hu⟩
  exact ⟨ts', _, Prod.ext hvalue rfl, hv, hext, hreplaced⟩

variable {k : String} {id : AssemblyId} {a : Assembly} {v : Universe}

/-- The references of the assembly `id`, which is remembered as `k`, are being bound. By now its
exported types are `es`, module by module. -/
structure Enters (w : World) (read : Reader) (pending : List AssemblyId) (bound : Nat) (k : String)
    (id : AssemblyId) (es : List (List TypeRef)) (u : Universe) : Prop where
  sound : u.Sound w read pending
  unread : u.unreadCount ≤ bound
  remembered : u.remembered? k = some (some id)
  kept : ∃ b, u.assembly? id = some ⟨id, b⟩ ∧ b.exports = es

theorem Enters.of_extends {es : List (List TypeRef)} (hu : Enters w read pending bound k id es u)
    (hext : u.Extends v) (hv : v.Sound w read pending) : Enters w read pending bound k id es v := by
  obtain ⟨b, hb, hes⟩ := hu.kept
  exact ⟨hv, Nat.le_trans hext.unreadCount_le hu.unread, hext.remembers k _ hu.remembered, b,
    hext.assembly? hb, hes⟩

/-- The binding of an exported type is entered. -/
theorem Enters.setExported {es es' : List (List TypeRef)} {done ts : List TypeRef} {t t' : TypeRef}
    (hu : Enters w read pending bound k id (es ++ (done ++ t :: ts) :: es') u) (hid : id ∈ pending)
    (ha : w k = some a) {m : Module} (hm : a.modules[es.length]? = some m)
    (ht : m.exported[done.length]? = some t) (hdetached : t.detached = t)
    (hanswered : w.Answered u t t') :
    Enters w read pending bound k id (es ++ (done ++ t' :: ts) :: es')
        (setExported id es.length done.length t' u) ∧
      u.Advances id (setExported id es.length done.length t' u) := by
  obtain ⟨b, hb, hes⟩ := hu.kept
  have hentered := Assembly.exports_setExported hes t'
  have hlater : ∀ c, u.assembly? id = some ⟨id, c⟩ →
      c.Later (c.setExported es.length done.length t') := by
    intro c hc
    rw [hb] at hc
    cases hc
    exact Assembly.later_of_exports hes hentered (hanswered.later hdetached)
  refine ⟨⟨?_, hu.unread, hu.remembered, _, ?_, hentered⟩, advances_update hlater⟩
  · exact hu.sound.update hu.remembered ha hlater
      (fun c hc => hc.setExported hm ht (.inr hanswered)) (fun id' hid' _ => hid') (absurd hid)
  · exact (assembly?_update ..).trans (by rw [hb, Option.map_some, if_pos rfl]; rfl)

/-- The exported types `ts` of a module are bound when those in `done` have been, and the modules
before it, whose exported types are `es`. -/
theorem bindExported_run (hresolve : Resolves w read bound resolve) (hfresh : w.Fresh)
    (hid : id ∈ pending) (ha : w k = some a) {m : Module} {es es' : List (List TypeRef)}
    (hm : a.modules[es.length]? = some m) (hdetached : ∀ t ∈ m.exported, t.detached = t)
    (origin : AssemblyName) (done ts : List TypeRef) (hts : m.exported.drop done.length = ts)
    (hu : Enters w read pending bound k id (es ++ (done ++ ts) :: es') u) : ∃ ts' v,
      (bindExported (bindReference resolve origin) id es.length done.length ts).run u = (ts', v) ∧
      Enters w read pending bound k id (es ++ (done ++ ts') :: es') v ∧ u.Advances id v ∧
      List.Forall₂ (w.Answered v) ts ts' := by
  induction ts generalizing done u with
  | nil => exact ⟨[], u, rfl, hu, .refl id u, .nil⟩
  | cons t ts ih =>
    obtain ⟨ht, hrest⟩ := getElem?_of_drop_eq_cons hts
    have htdetached := hdetached t (List.mem_of_getElem? ht)
    obtain ⟨t', v, hrun, hv, hext, hanswered⟩ :=
      bindReference_run hresolve hfresh hu.sound hu.unread htdetached origin
    obtain ⟨hset, hadvances⟩ :=
      (hu.of_extends hext hv).setExported hid ha hm ht htdetached hanswered
    -- `t` is done now, so it moves over for the rest
    have hmove (rs : List TypeRef) : done ++ t' :: rs = (done ++ [t']) ++ rs := by simp
    have hlength : (done ++ [t']).length = done.length + 1 := by simp
    rw [hmove] at hset
    obtain ⟨ts', x, hrun', hx, hadvances', hrel⟩ := ih (done ++ [t']) (by rw [hlength, hrest]) hset
    rw [hlength] at hrun'
    refine ⟨t' :: ts', x, bindExported_run_cons hrun hrun', ?_,
      (hext.advances id).trans (hadvances.trans hadvances'), ?_⟩
    · rw [hmove]
      exact hx
    · exact .cons (hanswered.mono (hadvances.trans hadvances').precedes) hrel

/-- The modules `ms` are bound when those before them have been, whose exported types are `es`. -/
theorem bindModules_run (hresolve : Resolves w read bound resolve) (hfresh : w.Fresh)
    (hid : id ∈ pending) (ha : w k = some a) (origin : AssemblyName) (es : List (List TypeRef))
    (ms : List Module) (hms : a.modules.drop es.length = ms)
    (hu : Enters w read pending bound k id (es ++ ms.map (·.exported)) u) : ∃ ms' v,
      (bindModules (bindReference resolve origin) id es.length ms).run u = (ms', v) ∧
      Enters w read pending bound k id (es ++ ms'.map (·.exported)) v ∧ u.Advances id v ∧
      List.Forall₂ (w.ModuleSettled v) ms ms' := by
  induction ms generalizing es u with
  | nil => exact ⟨[], u, rfl, hu, .refl id u, .nil⟩
  | cons m ms ih =>
    obtain ⟨hm, hrest⟩ := getElem?_of_drop_eq_cons hms
    have hdetached : ∀ r ∈ TypeDefinition.refsOf m.types ++ m.exported, r.detached = r := fun r hr =>
      hfresh k a ha r (Assembly.mem_references.2 ⟨m, List.mem_of_getElem? hm, hr⟩)
    obtain ⟨types, v, hrun, hv, hext, htypes⟩ := traverseAll_run hresolve hfresh hu.sound hu.unread
      (fun r hr => hdetached r (List.mem_append_left _ hr)) origin
    obtain ⟨exported, x, hrun', hx, hadvances, hexported⟩ :=
      bindExported_run hresolve hfresh hid ha hm (fun t ht => hdetached t (List.mem_append_right _ ht))
        origin [] m.exported List.drop_zero (hu.of_extends hext hv)
    have hmove : es ++ exported :: ms.map (·.exported) =
        (es ++ [exported]) ++ ms.map (·.exported) := by simp
    have hlength : (es ++ [exported]).length = es.length + 1 := by simp
    rw [List.nil_append, hmove] at hx
    obtain ⟨ms', y, hrun'', hy, hadvances', hrel⟩ := ih (es ++ [exported]) (by rw [hlength, hrest]) hx
    rw [hlength] at hrun''
    refine ⟨{ m with types, exported } :: ms', y, bindModules_run_cons hrun hrun' hrun'', ?_,
      (hext.advances id).trans (hadvances.trans hadvances'), .cons ⟨rfl, ?_, ?_⟩ hrel⟩
    · simpa using hy
    · exact htypes.imp fun _ _ hr => hr.mono (hadvances.trans hadvances').precedes
    · exact hexported.imp fun _ _ hr => hr.mono hadvances'.precedes

/-- An assembly that was just taken in has all its references answered. -/
theorem bindAssembly_run (hresolve : Resolves w read bound resolve) (hfresh : w.Fresh)
    (h : u.Sound w read (id :: pending)) (hu : u.unreadCount ≤ bound)
    (hk : u.remembered? k = some (some id)) (ha : w k = some a)
    (hkept : u.assembly? id = some ⟨id, a⟩) : ∃ b v,
      (bindAssembly resolve ⟨id, a⟩).run u = (⟨id, b⟩, v) ∧ v.Sound w read pending ∧
      u.Advances id v ∧ v.assembly? id = some ⟨id, b⟩ ∧ w.Settled v a b := by
  have hid : id ∈ id :: pending := List.mem_cons_self
  obtain ⟨ms, v, hrun, hv, hadvances, hms⟩ := bindModules_run hresolve hfresh hid ha a.name []
    a.modules List.drop_zero ⟨h, hu, hk, a, hkept, rfl⟩
  let b : Assembly := { a with modules := ms }
  have hsettled : w.Settled v a b := ⟨rfl, hms⟩
  obtain ⟨c, hc, hexports⟩ := hv.kept
  have hlater : ∀ d, v.assembly? id = some ⟨id, d⟩ → d.Later b := by
    intro d hd
    rw [hc] at hd
    cases hd
    exact .of_exports hexports.symm
  have hadvances' := advances_update (f := fun _ => b) hlater
  refine ⟨b, v.update id fun _ => b, bindAssembly_run_modules hrun, ?_,
    hadvances.trans hadvances', ?_, hsettled.mono hadvances'.precedes⟩
  · refine hv.sound.update hv.remembered ha hlater (fun _ _ => hsettled.mirrors)
      (fun id' hid' hne => ?_) fun _ _ => hsettled
    exact (List.mem_cons.1 hid').resolve_left hne
  · rw [assembly?_update, hc, Option.map_some, if_pos rfl]

/-! ## Assemblies on demand -/

variable {depth : Nat} {name : AssemblyName}

/-- What is remembered of a name is how it is in the world. -/
theorem Sound.remembered (h : u.Sound w read pending) {entry : Option AssemblyId}
    (he : u.remembered? (key name) = some entry) :
    match w (key name) with
    | none => entry.bind u.assembly? = none
    | some _ => ∃ l, entry.bind u.assembly? = some l ∧ u.idOf (key name) = some l.id ∧
        u.assembly? l.id = some l := by
  cases entry with
  | none =>
    rw [h.absent _ he]
    rfl
  | some id =>
    obtain ⟨a, l, ha, hl, -⟩ := h.present _ id he
    obtain rfl := assembly?_id hl
    rw [ha]
    exact ⟨l, by rw [Option.bind_some, hl], Option.join_eq_some_iff.2 he, hl⟩

/-- An assembly that is read on demand is taken in, and its references are bound. -/
theorem resolveAssemblyWithin_read (hfresh : w.Fresh)
    (hresolve : Resolves w read depth (resolveAssemblyWithin read depth))
    (h : u.Sound w read pending) (hu : u.unreadCount ≤ depth + 1)
    (he : u.remembered? (key name) = none) {path : Path} (hp : u.referencePath? name = some path)
    {a : Assembly} (hr : read path = .ok a) (hw : w (key name) = some a) :
    ∃ l v, (resolveAssemblyWithin read (depth + 1) name).run u = (some l, v) ∧
      v.Sound w read pending ∧ u.Extends v ∧ v.idOf (key name) = some l.id ∧
      v.assembly? l.id = some l := by
  have hnoted := h.noteRead path
  have hext : u.Extends ((u.noteRead path).takeIn (key name) a).2 :=
    (extends_noteRead u path).trans (extends_takeIn (u := u.noteRead path) he a)
  have hentry : ((u.noteRead path).takeIn (key name) a).2.remembered? (key name) =
      some (some ⟨u.context, u.next⟩) :=
    (remembered?_takeIn _ _ _ a).trans (if_pos rfl)
  have hless := hext.unreadCount_lt hp he hentry
  obtain ⟨b, v, hrun, hv, hadvances, hkept, -⟩ := bindAssembly_run hresolve hfresh
    (hnoted.takeIn he hw) (by omega) hentry hw (hnoted.assembly?_takeIn _ a)
  refine ⟨_, v, resolveAssemblyWithin_run_read he hp hr hrun, hv,
    hext.trans_advances hadvances h.assembly?_next, ?_, hkept⟩
  exact Option.join_eq_some_iff.2 (hadvances.remembers _ _ hentry)

/-- An assembly is found on demand if no more of them are to be read than demands may be nested. -/
theorem resolveAssemblyWithin_resolves (hfresh : w.Fresh) (depth : Nat) :
    Resolves w read depth (resolveAssemblyWithin read depth) := by
  induction depth using Nat.strongRecOn with
  | ind depth ih =>
    intro pending u name h hu
    cases he : u.remembered? (key name) with
    | some entry =>
      exact ⟨_, u, resolveAssemblyWithin_run_remembered he, h, .refl u, h.remembered he⟩
    | none =>
      have hw := h.unread name he
      cases hp : u.referencePath? name with
      | none =>
        rw [hp, Option.bind_none] at hw
        rw [resolveAssemblyWithin_run_absent he hp, hw]
        exact ⟨none, _, rfl, (h.report _).rememberNone he hw,
          (extends_report u _).trans (extends_remember (u := u.report _) he none), rfl⟩
      | some path =>
        rw [hp, Option.bind_some] at hw
        -- something is left to read, so there is depth left to read it
        have hpos := unreadCount_pos hp he
        obtain ⟨depth, rfl⟩ : ∃ d, depth = d + 1 := ⟨depth - 1, by omega⟩
        cases hr : read path with
        | error e =>
          rw [hr] at hw
          rw [resolveAssemblyWithin_run_unreadable he hp hr, hw]
          exact ⟨none, _, rfl, ((h.noteRead path).report _).rememberNone he hw,
            (extends_noteRead u path).trans ((extends_report _ _).trans
              (extends_remember (u := (u.noteRead path).report _) he none)), rfl⟩
        | ok a =>
          rw [hr] at hw
          obtain ⟨l, v, hrun, hv, hext, hfound⟩ := resolveAssemblyWithin_read hfresh
            (ih depth (Nat.lt_succ_self depth)) h hu he hp hr hw
          rw [hw]
          exact ⟨some l, v, hrun, hv, hext, l, rfl, hfound⟩

end Assemblies

end Universe

end ApiEvolution
