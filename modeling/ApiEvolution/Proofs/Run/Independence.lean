import ApiEvolution.Proofs.Catalog
import ApiEvolution.Proofs.Run.Loading

/-!
# Bindings do not depend on the way they were made

The references of the assemblies of a build are bound while other references still are not, and an
exported type that is bound already takes no part in how many of them are followed. So a reference
may be bound, or resolved later, although it leads to its definition by too many exported types. But
it is never bound to anything else than what it leads to, resolving it once more finds what it is
bound to, and whatever can be looked up without shortcuts it is bound to (`Build.bindings_agree`).
-/

namespace ApiEvolution

open Universe

/-- The binding of references to the definition. -/
def Definition.binding (d : Definition) : Binding :=
  .resolved d.id d.type.descriptor

/-- The binding of references to what stands at the place, if its assembly was read. -/
def Universe.bindingAt? (u : Universe) (x : Place) : Option Binding :=
  (u.idOf x.key).map fun id => .resolved ⟨id, x.found.position⟩ x.found.type.descriptor

variable {w : World} {read : Reader} {u v : Universe}

theorem Universe.Extends.bindingAt? (h : u.Extends v) {x : Place} {e : Binding}
    (he : u.bindingAt? x = some e) : v.bindingAt? x = some e := by
  obtain ⟨id, hid, rfl⟩ := Option.map_eq_some_iff.1 he
  rw [Universe.bindingAt?, h.idOf hid, Option.map_some]

theorem World.Resolved.bindingAt? {x : Place} {d : Definition} (h : World.Resolved u x d) :
    u.bindingAt? x = some d.binding := by
  have hid : d.id = ⟨d.id.assembly, x.found.position⟩ := by rw [← h.position]
  rw [Universe.bindingAt?, h.id, Option.map_some, Definition.binding,
    TypeDefinition.descriptor_eq_of_outline h.outline, hid]

/-! ## Unbound copies -/

/-- The unbound copy of a reference is the reference as it was read. -/
theorem World.Answered.toReference {t t' : TypeRef} (h : w.Answered u t t') (ht : t.detached = t)
    (hdefinition : t'.isDefinition = false) : t'.toReference = t ∧ t.isBound = false := by
  obtain ⟨space, name, scope, binding⟩ := t
  have hscope : scope.detached = scope := (TypeRef.mk.inj ht).2.2.1
  have hcopy (b : Binding) : (TypeRef.mk space name scope b).toReference =
      .mk space name scope .unbound := by
    rw [TypeRef.toReference]
    exact congrArg (TypeRef.mk space name · .unbound) hscope
  have hunbound (hb : (TypeRef.mk space name scope binding).isBound = false) : binding = .unbound := by
    cases binding with
    | unbound => rfl
    | _ => cases hb
  cases h with
  | kept hbound =>
    cases binding with
    | definition => cases hdefinition
    | unbound => cases hbound
    | unresolved | dropped | resolved => simp [TypeRef.detached, Binding.detached] at ht
  | unresolved hbound | resolved hbound =>
    rw [hunbound hbound]
    exact ⟨hcopy _, rfl⟩

/-- The references of assemblies that are loaded answer those that were read. -/
theorem Universe.Sound.exists_answered (h : u.Sound w read []) {r : TypeRef}
    (hr : r ∈ u.loaded.flatMap (·.assembly.references)) :
    ∃ k a t, w k = some a ∧ t ∈ a.references ∧ w.Answered u t r := by
  obtain ⟨l, hl, hr⟩ := List.mem_flatMap.1 hr
  obtain ⟨⟨_, entry⟩, -, hl⟩ := List.mem_filterMap.1 hl
  obtain ⟨id, -, hl⟩ := Option.bind_eq_some_iff.1 hl
  obtain rfl := assembly?_id hl
  obtain ⟨k, hk⟩ := h.named l (List.mem_of_find?_eq_some hl)
  obtain ⟨a, -, ha, -⟩ := h.present k l.id hk
  obtain ⟨t, ht, hanswered⟩ := (h.settled k l.id a l hk ha hl List.not_mem_nil).exists_answered hr
  exact ⟨k, a, t, ha, ht, hanswered⟩

/-! ## Agreement -/

/-- A reference that was unbound is marked where nothing can be looked up, or it is bound to what it
reaches. -/
theorem World.Answered.binding {t t' : TypeRef} (h : w.Answered u t t') (ht : t.isBound = false) :
    t'.binding = .unresolved ∧ w.lookup t = none ∨
      ∃ x, w.Reaches u.Shortcuts (maxForwards + 1) t x ∧ u.bindingAt? x = some t'.binding := by
  cases h with
  | kept hbound =>
    rw [ht] at hbound
    cases hbound
  | unresolved _ hnone => exact .inl ⟨rfl, hnone⟩
  | resolved _ hx hid => exact .inr ⟨_, hx, by rw [Universe.bindingAt?, hid]; rfl⟩

/-- What resolving a reference finds is what the reference leads to. -/
theorem Universe.Sound.leads_of_resolveType (h : u.Sound w read []) (hfresh : w.Fresh) {t : TypeRef}
    (ht : t.detached = t) {e : Binding}
    (he : ((resolveType read t).run u).1.map Definition.binding = some e) :
    ∃ n x, w.lookupWithin n t = some x ∧
      ((resolveType read t).run u).2.bindingAt? x = some e := by
  obtain ⟨found, v, hrun, -, -, hsound, -⟩ :=
    resolveTypeBy_reaches (resolveAssembly_resolves hfresh _) hfresh h (Nat.le_refl _) ht
  rw [resolveType, hrun] at he ⊢
  obtain ⟨d, hd, rfl⟩ := Option.map_eq_some_iff.1 he
  obtain ⟨x, hx, hd⟩ := hsound d hd
  obtain ⟨n, hx⟩ := hx.lookup
  exact ⟨n, x, hx, hd.bindingAt?⟩

/-- Resolving a reference finds what is reached. -/
theorem Universe.Sound.resolveType_of_reaches (h : u.Sound w read []) (hfresh : w.Fresh)
    {t : TypeRef} (ht : t.detached = t) {x : Place} {e : Binding}
    (hx : w.Reaches u.Shortcuts (maxForwards + 1) t x) (he : u.bindingAt? x = some e) :
    ((resolveType read t).run u).1.map Definition.binding = some e := by
  obtain ⟨found, v, hrun, -, hext, hsound, hcomplete⟩ :=
    resolveTypeBy_reaches (resolveAssembly_resolves hfresh _) hfresh h (Nat.le_refl _) ht
  rw [resolveType, hrun]
  obtain ⟨d, rfl⟩ := Option.isSome_iff_exists.1 (hcomplete x hx)
  obtain ⟨y, hy, hd⟩ := hsound d rfl
  obtain rfl := hx.unique hy
  exact congrArg some (Option.some.inj (hd.bindingAt?.symm.trans (hext.bindingAt? he)))

namespace Build

variable {b : Build} {a : Assembly}

/-- In a build that was loaded, a reference is marked as unresolved or bound to what resolving an
unbound copy of it finds. What is found is what the reference leads to. Both are what can be looked
up, if anything can; and if no more than that is found by following more exported types, the three
are the same, and a reference is marked as unresolved if there is nothing. -/
theorem bindings_agree (context : Nat) (hread : b.Reads read fun c => c.detached = c)
    (ha : read b.assembly = .ok a) {r : TypeRef}
    (hr : r ∈ (b.load read context).2.loaded.flatMap (·.assembly.references))
    (hdefinition : r.isDefinition = false) :
    let w := b.world read a
    let u := (b.load read context).2
    let resolving := (resolveType read r.toReference).run u
    let found := resolving.1.map Definition.binding
    (r.binding = .unresolved ∨ found = some r.binding) ∧
      (∀ e, found = some e → ∃ n x,
        w.lookupWithin n r.toReference = some x ∧ resolving.2.bindingAt? x = some e) ∧
      (∀ x, w.lookup r.toReference = some x →
        u.bindingAt? x = some r.binding ∧ found = some r.binding) ∧
      ((∀ n x, w.lookupWithin n r.toReference = some x → w.lookup r.toReference = some x) →
        found = (w.lookup r.toReference).bind u.bindingAt? ∧ r.binding = found.getD .unresolved) := by
  intro w u resolving found
  have hfresh : w.Fresh := world_fresh hread ha
  obtain ⟨c, u', hload, hu', -, -⟩ := load_run context hread ha
  have hu : u.Sound w read [] := by
    have hsame : u = u' := congrArg Prod.snd hload
    rw [hsame]
    exact hu'
  obtain ⟨k, a', t, ha', ht, hanswered⟩ := hu.exists_answered hr
  have hdetached : t.detached = t := hfresh k a' ha' t ht
  -- an unbound copy of the reference is the reference that was read
  obtain ⟨rfl, hunbound⟩ := hanswered.toReference hdetached hdefinition
  have hleads : ∀ e, found = some e → ∃ n x,
      w.lookupWithin n r.toReference = some x ∧ resolving.2.bindingAt? x = some e :=
    fun e he => hu.leads_of_resolveType hfresh hdetached he
  rcases hanswered.binding hunbound with ⟨hmark, hnone⟩ | ⟨x, hx, hbinding⟩
  · have hno (x : Place) : w.lookup r.toReference ≠ some x := fun hx => by
      rw [hnone] at hx
      cases hx
    refine ⟨.inl hmark, hleads, fun x hx => absurd hx (hno x), fun hshallow => ?_⟩
    have hnothing : found = none := by
      refine Option.eq_none_iff_forall_ne_some.2 fun e he => ?_
      obtain ⟨n, x, hx, -⟩ := hleads e he
      exact hno x (hshallow n x hx)
    rw [hnothing, hnone, hmark]
    exact ⟨rfl, rfl⟩
  · have hsame : found = some r.binding :=
      hu.resolveType_of_reaches hfresh hdetached hx hbinding
    obtain ⟨n, hx⟩ := hx.lookup
    refine ⟨.inr hsame, hleads, fun y hy => ?_, fun hshallow => ?_⟩
    · obtain rfl := World.lookupWithin_unique hx hy
      exact ⟨hbinding, hsame⟩
    · rw [hsame, hshallow n x hx]
      exact ⟨hbinding.symm, rfl⟩

/-! ## A relay of exported types -/

def typeIn (assembly name : String) : TypeRef :=
  .topLevel (.simple assembly) "" name

/-- A class whose type parameter has these constraints. -/
def constrainedBy (name : String) (constraints : List TypeRef) : TypeDeclaration :=
  (TypeDeclaration.hidden name).generic { name := "X", constraints := constraints.map .named }

/-- Each assembly exports the type `T` of the next one, and the last one has it. Each has a class
`W` that refers to the class `W` of the one before; that of the first one refers to `t`. -/
def relay (t : TypeRef) : List String → List (String × List TypeDeclaration × List TypeRef)
  | [] => []
  | [last] => [(last, [.hidden "T", constrainedBy "W" [t]], [])]
  | name :: next :: rest =>
    (name, [constrainedBy "W" [t]], [typeIn next "T"]) :: relay (typeIn name "W") (next :: rest)

def relayNames : List String :=
  ["A", "B", "C", "D", "E", "F", "G", "H", "I", "J", "K", "L", "M", "N", "O", "P", "Q", "R"]

/-- An assembly with references. -/
def startAssembly (ts : List TypeRef) : Assembly :=
  .of "Start" [constrainedBy "User" ts] []

/-- That assembly and the first `n` of a relay, of which the first one refers to what it exports. -/
def relayed (ts : List TypeRef) (n : Nat) : Reader :=
  (Catalog.of (("Start", [constrainedBy "User" ts], []) ::
    relay (typeIn "A" "T") (relayNames.take n))).reader

def relaying : Build :=
  ⟨"v1", ⟨"Start"⟩, relayNames.map (⟨·⟩)⟩

theorem detached_relay (t : TypeRef) (ht : t.detached = t) : (names : List String) →
    ∀ a ∈ relay t names, ∀ r ∈ (Assembly.of a.1 a.2.1 a.2.2).references, r.detached = r
  | [], a, ha, _, _ => absurd ha List.not_mem_nil
  | [last], a, ha, r, hr => by
    rw [relay, List.mem_singleton] at ha
    subst ha
    rw [List.mem_singleton.1 hr, ht]
  | name :: next :: rest, a, ha, r, hr => by
    rw [relay] at ha
    rcases List.mem_cons.1 ha with rfl | ha
    · rcases List.mem_cons.1 hr with rfl | hr
      · exact ht
      · rw [List.mem_singleton.1 hr]
        rfl
    · exact detached_relay (typeIn name "W") rfl (next :: rest) a ha r hr

variable {ts : List TypeRef} {n : Nat}

theorem references_startAssembly (ts : List TypeRef) : (startAssembly ts).references = ts := by
  have hconstraints : (startAssembly ts).references =
      ((((Signature.refsOf (ts.map .named) ++ []) ++ []) ++ []) ++ []) ++ [] := rfl
  rw [hconstraints, Signature.refsOf_eq, List.flatMap_map]
  simp only [List.append_nil]
  exact List.flatMap_singleton' ts

theorem reads_relaying (hts : ∀ t ∈ ts, t.detached = t) :
    relaying.Reads (relayed ts n) fun c => c.detached = c := by
  intro p _ c hc
  refine (Catalog.built_of (fun e he r hr => ?_) p c hc).unbound
  rcases List.mem_cons.1 he with rfl | he
  · have hr : r ∈ (startAssembly ts).references := hr
    rw [references_startAssembly] at hr
    exact hts r hr
  · exact detached_relay _ rfl _ e he r hr

theorem read_relaying : relayed ts n relaying.assembly = .ok (startAssembly ts) := by
  have hfind (cs : List (String × List TypeDeclaration × List TypeRef)) :
      (Catalog.of (("Start", [constrainedBy "User" ts], []) :: cs)).find? ⟨"Start"⟩ =
        some (startAssembly ts) := by
    rw [Catalog.find?, Catalog.of, List.map_cons, List.find?_cons, Path.agrees_refl]
    rfl
  rw [relayed, Catalog.reader, relaying, hfind]

/-- A reference that leads to its definition by two exported types. -/
theorem bindings_agree_relaying :
    let read := relayed [typeIn "A" "T"] 3
    let w := relaying.world read (startAssembly [typeIn "A" "T"])
    let u := (relaying.load read 0).2
    ∃ r ∈ u.loaded.flatMap (·.assembly.references), ∃ x, w.lookup r.toReference = some x ∧
      x.key = "c" ∧ u.bindingAt? x = some r.binding ∧
      ((resolveType read r.toReference).run u).1.map Definition.binding = some r.binding := by
  intro read w u
  have hany : (u.loaded.flatMap (·.assembly.references)).any (fun r =>
      !r.isDefinition && (w.lookup r.toReference).any (·.key == "c")) = true := by decide +kernel
  obtain ⟨r, hr, htest⟩ := List.any_eq_true.1 hany
  rw [Bool.and_eq_true, Bool.not_eq_true', Option.any_eq_true] at htest
  obtain ⟨hdefinition, x, hx, hkey⟩ := htest
  have hread : relaying.Reads read fun c => c.detached = c := reads_relaying fun t ht => by
    rw [List.mem_singleton.1 ht]
    rfl
  have hagree := (bindings_agree 0 hread read_relaying hr hdefinition).2.2.1 x hx
  exact ⟨r, hr, x, hx, beq_iff_eq.1 hkey, hagree⟩

/-- By seventeen exported types a reference does not lead to its definition, and resolving it finds
nothing as long as none of them is bound; but it does so when they are. Nor do descriptors of
definitions, which nothing is looked up for, agree with what resolving them finds. -/
theorem exists_bindings_disagree :
    let ts := [typeIn "R" "W", typeIn "A" "T", .mk "" "User" (.assembly (.simple "Start")) .definition]
    let read := relayed ts 18
    let u := (relaying.load read 0).2
    let refs := u.loaded.flatMap (·.assembly.references)
    let found := fun r : TypeRef => ((resolveType read r.toReference).run u).1
    (relaying.Reads read fun c => c.detached = c) ∧ read relaying.assembly = .ok (startAssembly ts) ∧
      (∃ r ∈ refs, r.isDefinition = false ∧ r.target? = none ∧ (found r).isSome) ∧
      (∃ r ∈ refs, r.isDefinition = false ∧ r.target?.isSome ∧
        (relaying.world read (startAssembly ts)).lookup r.toReference = none) ∧
      ∃ r ∈ refs, r.isDefinition ∧ r.target? = none ∧ (found r).isSome := by
  intro ts read u refs found
  have hany : ((refs.any fun r => !r.isDefinition && (r.target?.isNone && (found r).isSome)) &&
      ((refs.any fun r => !r.isDefinition && (r.target?.isSome &&
        ((relaying.world read (startAssembly ts)).lookup r.toReference).isNone)) &&
      refs.any fun r => r.isDefinition && (r.target?.isNone && (found r).isSome))) = true := by
    decide +kernel
  simp only [Bool.and_eq_true, List.any_eq_true, Bool.not_eq_true', Option.isNone_iff_eq_none] at hany
  refine ⟨reads_relaying fun t ht => ?_, read_relaying, hany⟩
  simp only [ts, List.mem_cons, List.not_mem_nil, or_false] at ht
  rcases ht with rfl | rfl | rfl <;> rfl

end Build

end ApiEvolution
