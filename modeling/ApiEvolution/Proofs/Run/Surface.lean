import ApiEvolution.Proofs.Pairing.Placeless
import ApiEvolution.Proofs.Run.Loading
import ApiEvolution.Proofs.Surface.Declared

/-!
# The surface of a build

A `World` says what an assembly brings into a tree: `World.surface` lists the types, in which
nothing is bound yet, and `World.sight` is what a comparison sees of each reference in them. An
assembly that was loaded brings just that (`World.surface_blurred`).
-/

namespace ApiEvolution

/-! ## Rebinding a surface -/

namespace TypeDefinition

variable (f : TypeRef → TypeRef)

theorem nestedTypes_rebind (t : TypeDefinition) :
    (t.rebind f).nestedTypes = t.nestedTypes.map (rebind f) := by
  cases t
  exact rebindAll_eq f _

theorem shaping_rebind : Shaping (rebind f) := by
  refine ⟨fun space name t => ?_, nestedTypes_rebind f⟩
  cases t
  rfl

/-- What is seen of a type depends on what becomes of its references. -/
theorem seen_congr {f g : TypeRef → TypeRef} {t : TypeDefinition} (h : ∀ r ∈ t.refs, f r = g r) :
    t.seen f = t.seen g := by
  obtain ⟨descriptor, flags, ps, ms, nested⟩ := t
  have hgenerics : ps.map (·.map f) = ps.map (·.map g) :=
    Passage.replace_congr (Passage.passes_generics ps fun r _ => Passage.passes_still r) fun r hr =>
      h r (List.mem_append_left _ (List.mem_append_left _ hr))
  have hmembers : ms.map (·.seen f) = ms.map (·.seen g) := by
    refine List.map_congr_left fun m hm => ?_
    have hkind : m.kind.map f = m.kind.map g :=
      Passage.replace_congr (Passage.passes_kind m.kind fun r _ => Passage.passes_still r) fun r hr =>
        h r (List.mem_append_left _ (List.mem_append_right _ (List.mem_flatMap.2 ⟨m, hm, hr⟩)))
    rw [Member.seen, Member.seen, hkind]
  rw [seen, seen, hgenerics, hmembers]

end TypeDefinition

theorem Assembly.definitionAt?_rebind (f : TypeRef → TypeRef) (a : Assembly) (p : List Nat) :
    (a.rebind f).definitionAt? p = (a.definitionAt? p).map (TypeDefinition.rebind f) := by
  refine (TypeDefinition.shaping_rebind f).definitionAt? ?_ p
  rw [topLevel, topLevel, rebind, List.flatMap_map, List.map_flatMap]
  exact List.flatMap_congr fun m _ => TypeDefinition.rebindAll_eq f m.types

namespace Selection

variable {s : Selection}

theorem Blind.includesType_rebind (hs : s.Blind) (f : TypeRef → TypeRef) (t : TypeDefinition) :
    s.includesType (t.rebind f) = s.includesType t := by
  rw [← hs.types TypeRef.blurred, ← TypeDefinition.blurred, TypeDefinition.blurred_rebind, hs.types]

mutual

theorem visit_rebind (hs : s.Blind) (f : TypeRef → TypeRef) : (t : TypeDefinition) →
    s.visit (t.rebind f) = (s.visit t).map (.rebind f)
  | ⟨d, flags, ps, ms, nested⟩ => by
    rw [visit, List.map_cons, ← visitAll_rebind hs f nested, TypeDefinition.rebind, visit,
      TypeDefinition.rebindAll_eq]

theorem visitAll_rebind (hs : s.Blind) (f : TypeRef → TypeRef) : (ts : List TypeDefinition) →
    s.visitAll (ts.map (.rebind f)) = (s.visitAll ts).map (.rebind f)
  | [] => rfl
  | t :: ts => by
    rw [List.map_cons, visitAll, visitAll, hs.includesType_rebind, visitAll_rebind hs f ts,
      List.map_append]
    split
    · rw [visit_rebind hs f t]
    · rfl

end

end Selection

/-! ## Surfaces in a world -/

namespace World

variable (w : World)

/-- All assemblies are as they were declared. -/
def Pristine : Prop :=
  ∀ k a, w k = some a → a.Pristine

/-- What an exported type leads to. -/
def exported? (t : TypeRef) : Option TypeDefinition :=
  if t.isBound then none else (w.lookup t).map (·.found.type)

/-- The types of an assembly that are compared, module by module. -/
def surface (s : Selection) (a : Assembly) : List TypeDefinition :=
  a.modules.flatMap fun m => s.visitAll m.types ++ s.visitAll (m.exported.filterMap w.exported?)

/-- What a comparison sees of a reference. -/
def sight (t : TypeRef) : TypeRef :=
  if t.isBound then t.blurred
  else t.withBinding (((w.lookup t).map fun x =>
    Binding.resolved ⟨⟨0, 0⟩, []⟩ x.found.type.descriptor.placeless).getD .unresolved)

variable {w} {u : Universe}

theorem Pristine.fresh (h : w.Pristine) : w.Fresh :=
  fun k a ha _ ht => Assembly.detached_of_mem_references (h k a ha).unbound ht

theorem Pristine.declared (h : w.Pristine) {t : TypeRef} {x : Place} (hx : w.lookup t = some x) :
    x.found.type.Declared := by
  obtain ⟨a, ha, hat⟩ := located_of_lookupWithin hx
  exact (h x.key a ha).definitionAt? hat

/-- Blurring hides which reading of an assembly a reference is bound to. -/
theorem blurred_bindIn {t : TypeRef} (h : w.Known u t) : (w.bindIn u t).blurred = w.sight t := by
  rw [bindIn, sight]
  split
  · rfl
  · next hb =>
    rw [bindingIn]
    cases hx : w.lookup t with
    | none => rfl
    | some x =>
      obtain ⟨id, hid⟩ := h (Bool.not_eq_true _ ▸ hb) x hx
      simp only [hid]
      rfl

theorem proper_bindIn (h : w.Pristine) {t : TypeRef} (ht : t.detached = t)
    (hchain : t.isDefinition → t.isDefinitionChain) : (w.bindIn u t).Proper := by
  rw [bindIn]
  split
  · intro d hd
    obtain ⟨space, name, scope, binding⟩ := t
    cases binding with
    | definition =>
      cases hd
      exact hchain rfl
    | resolved id e => simp [TypeRef.detached, Binding.detached] at ht
    | _ => cases hd
  · intro d hd
    rw [bindingIn] at hd
    cases hx : w.lookup t with
    | none =>
      rw [hx] at hd
      cases hd
    | some x =>
      rw [hx] at hd
      cases hid : u.idOf x.key with
      | none =>
        simp only [hid] at hd
        cases hd
      | some id =>
        simp only [hid] at hd
        cases hd
        exact (h.declared hx).descriptor

end World

/-! ## Surfaces of loaded assemblies -/

namespace Universe.Exact

variable {w : World} {u : Universe}

/-- The definition at a place is the one there, with its references bound. -/
theorem definition?_rebind (h : u.Exact w) {t : TypeRef} {x : Place} {id : AssemblyId}
    (hx : w.lookup t = some x) (hid : u.idOf x.key = some id) :
    u.definition? ⟨id, x.found.position⟩ = some (x.found.type.rebind (w.bindIn u)) := by
  obtain ⟨-, a, ha, hl, -⟩ := h x.key id hid
  obtain ⟨b, hb, hat⟩ := World.located_of_lookupWithin hx
  rw [ha] at hb
  cases hb
  rw [Universe.definition?, hl, Option.bind_some, Assembly.definitionAt?_rebind, hat]
  rfl

/-- What has been read has known references only. -/
theorem known_of_idOf (h : u.Exact w) {k : String} {id : AssemblyId} {a : Assembly}
    (hid : u.idOf k = some id) (ha : w k = some a) : ∀ r ∈ a.references, w.Known u r := by
  obtain ⟨-, b, hb, -, hknown⟩ := h k id hid
  rw [ha] at hb
  cases hb
  exact hknown

end Universe.Exact

/-- The definitions of a universe, by the context of their assemblies. -/
def Universe.AnsweredBy (u : Universe) (definitions : DefinitionId → Option TypeDefinition) : Prop :=
  ∀ id, id.assembly.context = u.context → definitions id = u.definition? id

namespace World

variable {w : World} {u : Universe} {s : Selection} {a : Assembly}
  {definitions : DefinitionId → Option TypeDefinition}

theorem target?_bindIn (h : u.Exact w) (hdefinitions : u.AnsweredBy definitions) {t : TypeRef}
    (ht : t.detached = t) (hknown : w.Known u t) :
    (w.bindIn u t).target?.bind definitions = (w.exported? t).map (.rebind (w.bindIn u)) := by
  cases hb : t.isBound with
  | true =>
    rw [bindIn_of_isBound hb, target?_of_detached ht, exported?, if_pos hb]
    rfl
  | false =>
    have hbind : w.bindIn u t = t.withBinding (w.bindingIn u t) := by
      rw [bindIn, hb]
      rfl
    have hexported : w.exported? t = (w.lookup t).map (·.found.type) := by
      rw [exported?, hb]
      rfl
    rw [hexported, hbind, bindingIn]
    cases hx : w.lookup t with
    | none => rfl
    | some x =>
      obtain ⟨id, hid⟩ := hknown hb x hx
      simp only [hid]
      exact (hdefinitions _ (h _ id hid).1).trans (h.definition?_rebind hx hid)

/-- A loaded assembly brings its surface, with the references bound. -/
theorem surface_rebind (hs : s.Blind) (hw : w.Pristine) (h : u.Exact w)
    (hdefinitions : u.AnsweredBy definitions) {k : String} (ha : w k = some a)
    (hknown : ∀ r ∈ a.references, w.Known u r) :
    s.surface definitions (a.rebind (w.bindIn u)) = (w.surface s a).map (.rebind (w.bindIn u)) := by
  rw [Selection.surface, surface, Assembly.rebind, List.flatMap_map, List.map_flatMap]
  refine List.flatMap_congr fun m hm => ?_
  have hexported : (m.exported.map (w.bindIn u)).filterMap (fun t => t.target?.bind definitions) =
      (m.exported.filterMap w.exported?).map (.rebind (w.bindIn u)) := by
    rw [List.filterMap_map, List.map_filterMap]
    refine List.filterMap_congr fun t ht => ?_
    have hmem : t ∈ a.references := Assembly.mem_references.2 ⟨m, hm, List.mem_append_right _ ht⟩
    exact target?_bindIn h hdefinitions (hw.fresh k a ha t hmem) (hknown t hmem)
  rw [Selection.moduleSurface, Module.rebind, TypeDefinition.rebindAll_eq,
    Selection.visitAll_rebind hs, hexported, Selection.visitAll_rebind hs, List.map_append]

/-- A reference in a surface stands in the assembly itself, or in one that an exported type of it
leads to. -/
theorem exists_of_mem_surface {k : String} (ha : w k = some a) {t : TypeDefinition}
    (ht : t ∈ w.surface s a) {r : TypeRef} (hr : r ∈ t.refs) :
    ∃ k' b, w k' = some b ∧ r ∈ b.references ∧ (k' = k ∨
      ∃ e x, e ∈ a.references ∧ e.isBound = false ∧ w.lookup e = some x ∧ x.key = k') := by
  obtain ⟨m, hm, ht⟩ := List.mem_flatMap.1 ht
  rcases List.mem_append.1 ht with ht | ht
  · have hrefs := Selection.refs_of_mem_visitAll m.types t ht r hr
    exact ⟨k, a, ha, Assembly.mem_references.2 ⟨m, hm, List.mem_append_left _ hrefs⟩, .inl rfl⟩
  · have hrefs := Selection.refs_of_mem_visitAll _ t ht r hr
    rw [TypeDefinition.refsOf_eq] at hrefs
    obtain ⟨v, hv, hr⟩ := List.mem_flatMap.1 hrefs
    obtain ⟨e, he, hv⟩ := List.mem_filterMap.1 hv
    rw [exported?] at hv
    split at hv
    · cases hv
    · next hb =>
      obtain ⟨x, hx, rfl⟩ := Option.map_eq_some_iff.1 hv
      obtain ⟨b, hb', hat⟩ := located_of_lookupWithin hx
      have hmem : e ∈ a.references :=
        Assembly.mem_references.2 ⟨m, hm, List.mem_append_right _ he⟩
      exact ⟨x.key, b, hb', Assembly.refs_of_definitionAt? hat hr,
        .inr ⟨e, x, hmem, Bool.not_eq_true _ ▸ hb, hx, rfl⟩⟩

theorem known_of_mem_surface (h : u.Exact w) {k : String} (ha : w k = some a)
    (hknown : ∀ r ∈ a.references, w.Known u r) {t : TypeDefinition} (ht : t ∈ w.surface s a)
    {r : TypeRef} (hr : r ∈ t.refs) : w.Known u r := by
  obtain ⟨k', b, hb, hmem, rfl | ⟨e, x, he, hunbound, hx, rfl⟩⟩ := exists_of_mem_surface ha ht hr
  · rw [ha] at hb
    cases hb
    exact hknown r hmem
  · obtain ⟨id, hid⟩ := hknown e he hunbound x hx
    exact h.known_of_idOf hid hb r hmem

theorem declared_of_mem_surface (hw : w.Pristine) {k : String} (ha : w k = some a)
    {t : TypeDefinition} (ht : t ∈ w.surface s a) : t.Declared := by
  obtain ⟨m, hm, ht⟩ := List.mem_flatMap.1 ht
  rcases List.mem_append.1 ht with ht | ht
  · refine Selection.forall_visitAll (fun _ hu _ => hu.nestedTypes) m.types (fun v hv => ?_) t ht
    exact (hw k a ha).topLevel (List.mem_flatMap.2 ⟨m, hm, hv⟩)
  · refine Selection.forall_visitAll (fun _ hu _ => hu.nestedTypes) _ (fun v hv => ?_) t ht
    obtain ⟨e, -, hv⟩ := List.mem_filterMap.1 hv
    rw [exported?] at hv
    split at hv
    · cases hv
    · obtain ⟨x, hx, rfl⟩ := Option.map_eq_some_iff.1 hv
      exact hw.declared hx

/-- All types that a loaded assembly brings are proper. -/
theorem proper_rebind (hw : w.Pristine) {k : String} (ha : w k = some a)
    {t : TypeDefinition} (ht : t ∈ w.surface s a) : (t.rebind (w.bindIn u)).Proper := by
  have hdeclared := declared_of_mem_surface hw ha ht
  have hrefs : ∀ r ∈ t.refs, (w.bindIn u r).Proper := by
    intro r hr
    obtain ⟨k', b, hb, hmem, -⟩ := exists_of_mem_surface ha ht hr
    exact proper_bindIn hw (hw.fresh k' b hb r hmem) ((hw k' b hb).chains r hmem)
  obtain ⟨descriptor, flags, ps, ms, nested⟩ := t
  refine ⟨hdeclared.descriptor, fun r hr => ?_, fun m hm => ?_⟩
  · have hmem : r ∈ GenericParameter.refsOf (ps.map (·.map (w.bindIn u))) := hr
    rw [GenericParameter.refsOf_map] at hmem
    obtain ⟨q, hq, rfl⟩ := List.mem_map.1 hmem
    exact hrefs q (List.mem_append_left _ (List.mem_append_left _ hq))
  · obtain ⟨n, hn, rfl⟩ := List.mem_map.1 hm
    have hchain : n.declaringType.isDefinitionChain := hdeclared.declaringType hn
    refine ⟨hchain, fun r hr => ?_⟩
    have hmem : r ∈ (n.kind.map (w.bindIn u)).refs := hr
    rw [MemberKind.refs_map] at hmem
    obtain ⟨q, hq, rfl⟩ := List.mem_map.1 hmem
    exact hrefs q (List.mem_append_left _ (List.mem_append_right _ (List.mem_flatMap.2 ⟨n, hn, hq⟩)))

/-- What a comparison sees of a loaded assembly is what there is to see in the world. -/
theorem surface_blurred (hs : s.Blind) (hw : w.Pristine) (h : u.Exact w)
    (hdefinitions : u.AnsweredBy definitions) {k : String} (ha : w k = some a)
    (hknown : ∀ r ∈ a.references, w.Known u r) :
    (s.surface definitions (a.rebind (w.bindIn u))).map TypeDefinition.blurred =
      (w.surface s a).map (.seen w.sight) := by
  rw [surface_rebind hs hw h hdefinitions ha hknown, List.map_map]
  refine List.map_congr_left fun t ht => ?_
  rw [Function.comp_apply, TypeDefinition.blurred_rebind]
  exact TypeDefinition.seen_congr fun r hr =>
    blurred_bindIn (known_of_mem_surface h ha hknown ht hr)

end World

end ApiEvolution
