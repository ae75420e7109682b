import ApiEvolution.Proofs.Pairing.Comparers

/-!
# Nested types and their declaring types

What an assembly brings into a tree is its top-level types, what its exported types lead to, and
types that stand behind the one that declares them (`Selection.grounded_registered`). So a nested
type can be in a tree without its declaring type only if an exported type leads straight to it. The
main statement is `SurfaceTree.nested_ofBuilds`.
-/

namespace ApiEvolution

/-! ## Nested types -/

theorem TypeDefinition.isNested_iff (t : TypeDefinition) :
    t.isNested ↔ t.descriptor.path.tail ≠ [] := by
  rw [isNested, TypeRef.path_eq, List.tail_cons, TypeRef.declaring?]
  cases t.descriptor.scope with
  | assembly a => simp [Scope.path]
  | nested d =>
    rw [Scope.path, TypeRef.path_eq]
    simp

theorem TypeDefinition.path_eq_of_detached {t u : TypeDefinition} (h : t.detached = u.detached) :
    t.descriptor.path = u.descriptor.path := by
  have hdescriptor := congrArg descriptor h
  rw [descriptor_detached, descriptor_detached] at hdescriptor
  rw [← TypeRef.path_detached, hdescriptor, TypeRef.path_detached]

/-- A nested type of a declared one is called by the path of the declaring type and its own name. -/
theorem TypeDefinition.Resembles.path_tail {t u : TypeDefinition} (h : t.Resembles)
    (hu : u ∈ t.nestedTypes) : u.descriptor.path.tail = t.descriptor.path := by
  obtain ⟨t', ⟨d, scope, -, rfl⟩, hsame⟩ := h
  have hmem : u.detached ∈ (d.build scope).nestedTypes.map detached := by
    rw [← nestedTypes_detached, ← hsame, nestedTypes_detached]
    exact List.mem_map_of_mem hu
  rw [TypeDeclaration.nestedTypes_build, List.map_map] at hmem
  obtain ⟨e, -, hcopy⟩ := List.mem_map.1 hmem
  rw [← path_eq_of_detached hcopy, TypeDeclaration.descriptor_build, path_eq_of_detached hsame]
  rfl

theorem Assembly.OfDeclaration.isNested_topLevel {a : Assembly} (h : a.OfDeclaration)
    {t : TypeDefinition} (ht : t ∈ a.topLevel) : t.isNested = false := by
  obtain ⟨d, hd⟩ := h
  have hmem : t.detached ∈ d.build.topLevel.map TypeDefinition.detached := by
    rw [← topLevel_detached, ← hd, topLevel_detached]
    exact List.mem_map_of_mem ht
  rw [AssemblyDeclaration.topLevel_build, List.map_map] at hmem
  obtain ⟨e, -, hcopy⟩ := List.mem_map.1 hmem
  rw [← Bool.not_eq_true, TypeDefinition.isNested_iff, ← TypeDefinition.path_eq_of_detached hcopy,
    TypeDeclaration.descriptor_build]
  exact fun hne => hne rfl

/-- The definition is one of the nested types of `p`. -/
def Definition.Declares (p d : Definition) : Prop :=
  ∃ i, d.id = { p.id with position := p.id.position ++ [i] } ∧ p.type.nestedTypes[i]? = some d.type

/-! ## What stands behind its declaring type -/

/-- Each definition of the list is a root, or stands behind one that declares it. -/
inductive Grounded (root : Definition → Prop) : List Definition → Prop
  | nil : Grounded root []
  | concat {ds : List Definition} {d : Definition} (hds : Grounded root ds)
    (hd : root d ∨ ∃ p ∈ ds, p.Declares d) : Grounded root (ds ++ [d])

namespace Grounded

variable {root root' : Definition → Prop} {ds es : List Definition}

theorem mono (h : Grounded root ds) (himp : ∀ d ∈ ds, root d → root' d) : Grounded root' ds := by
  induction h with
  | nil => exact .nil
  | concat _ hd ih =>
    refine .concat (ih fun d hd => himp d (List.mem_append_left _ hd)) (hd.imp_left (himp _ ?_))
    exact List.mem_append_right _ (List.mem_singleton_self _)

theorem append (hds : Grounded root ds) (hes : Grounded root es) : Grounded root (ds ++ es) := by
  induction hes with
  | nil => rwa [List.append_nil]
  | concat _ hd ih =>
    rw [← List.append_assoc]
    refine .concat ih (hd.imp_right ?_)
    rintro ⟨p, hp, hdeclares⟩
    exact ⟨p, List.mem_append_right _ hp, hdeclares⟩

/-- What a root declares may stand behind it. -/
theorem cons {p : Definition} (hp : root p) (hds : Grounded p.Declares ds) :
    Grounded root (p :: ds) := by
  induction hds with
  | nil => exact .concat .nil (.inl hp)
  | @concat ds d _ hd ih =>
    refine .concat ih (.inr ?_)
    rcases hd with hd | ⟨q, hq, hd⟩
    · exact ⟨p, List.mem_cons_self, hd⟩
    · exact ⟨q, List.mem_cons_of_mem p hq, hd⟩

theorem flatMap {α : Type} {f : α → List Definition} {xs : List α}
    (h : ∀ x ∈ xs, Grounded root (f x)) : Grounded root (xs.flatMap f) := by
  induction xs with
  | nil => exact .nil
  | cons x xs ih =>
    rw [List.flatMap_cons]
    exact (h x List.mem_cons_self).append (ih fun y hy => h y (List.mem_cons_of_mem x hy))

theorem split {d : Definition} (h : Grounded root (ds ++ d :: es)) :
    root d ∨ ∃ p ∈ ds, p.Declares d := by
  induction es using List.reverseRecOn with
  | nil =>
    generalize hall : ds ++ [d] = all at h
    cases h with
    | nil => simp at hall
    | concat _ hd =>
      obtain ⟨rfl, heq⟩ := List.append_inj' hall rfl
      cases heq
      exact hd
  | append_singleton es e ih =>
    generalize hall : ds ++ d :: (es ++ [e]) = all at h
    cases h with
    | nil => simp at hall
    | concat hds _ =>
      rw [← List.cons_append, ← List.append_assoc] at hall
      obtain ⟨rfl, -⟩ := List.append_inj' hall rfl
      exact ih hds

end Grounded

namespace Selection

variable (s : Selection)

mutual

theorem grounded_expand (id : DefinitionId) : (t : TypeDefinition) →
    Grounded (· = ⟨id, t⟩) (s.expand id t)
  | ⟨d, f, g, m, nested⟩ => by
    rw [expand]
    refine .cons rfl (grounded_expandFrom ⟨id, ⟨d, f, g, m, nested⟩⟩ 0 nested fun i u hu => ?_)
    rwa [Nat.zero_add]

theorem grounded_expandFrom (p : Definition) : (position : Nat) → (ts : List TypeDefinition) →
    (∀ i u, ts[i]? = some u → p.type.nestedTypes[position + i]? = some u) →
    Grounded p.Declares (s.expandFrom p.id position ts)
  | _, [], _ => .nil
  | position, t :: ts, h => by
    rw [expandFrom]
    refine .append ?_ (grounded_expandFrom p (position + 1) ts fun i u hu => ?_)
    · split
      · refine (grounded_expand _ t).mono fun d _ hd => ?_
        subst hd
        exact ⟨position, rfl, h 0 t rfl⟩
      · exact .nil
    · rw [Nat.add_assoc, Nat.add_comm 1 i]
      exact h (i + 1) u hu

end

theorem grounded_admitted (d : Definition) : Grounded (· = d) (s.admitted d) := by
  rw [admitted]
  split
  · exact s.grounded_expand d.id d.type
  · exact .nil

/-- A top-level type of the assembly, or what one of its exported types leads to. -/
def IsRoot (definitions : DefinitionId → Option TypeDefinition) (a : Assembly) (d : Definition) :
    Prop :=
  d.type ∈ a.topLevel ∨ ∃ r ∈ a.exported, forwarded? definitions r = some d

/-- What an assembly brings and is not a root of it stands behind its declaring type. -/
theorem grounded_registered (definitions : DefinitionId → Option TypeDefinition) (l : Loaded) :
    Grounded (IsRoot definitions l.assembly) (s.registered definitions l) := by
  have hmodules (position : Nat) (ms : List Module) (hms : ms ⊆ l.assembly.modules) :
      Grounded (IsRoot definitions l.assembly)
        (s.registeredFrom definitions l.id position ms) := by
    induction ms generalizing position with
    | nil => exact .nil
    | cons m ms ih =>
      obtain ⟨hm, hms⟩ := List.cons_subset.1 hms
      rw [registeredFrom]
      refine ((Grounded.flatMap fun t ht => ?_).append (Grounded.flatMap fun d hd => ?_)).append
        (ih _ hms)
      · refine (s.grounded_admitted _).mono fun d _ hd => .inl ?_
        subst hd
        exact List.mem_flatMap.2 ⟨m, hm, List.fst_mem_of_mem_zipIdx ht⟩
      · refine (s.grounded_admitted d).mono fun d' _ hd' => .inr ?_
        subst hd'
        obtain ⟨r, hr, hd⟩ := List.mem_filterMap.1 hd
        exact ⟨r, List.mem_flatMap.2 ⟨m, hm, hr⟩, hd⟩
  exact hmodules 0 _ (List.Subset.refl _)

variable {s} {definitions : DefinitionId → Option TypeDefinition} {l : Loaded}

mutual

theorem includesType_of_mem_visit : (t : TypeDefinition) → s.includesType t → ∀ u ∈ s.visit t,
    s.includesType u
  | ⟨d, f, g, m, nested⟩, ht, u, hu => by
    rw [visit] at hu
    rcases List.mem_cons.1 hu with rfl | hu
    · exact ht
    · exact includesType_of_mem_visitAll nested u hu

/-- Whatever is visited takes part. -/
theorem includesType_of_mem_visitAll : (ts : List TypeDefinition) → ∀ u ∈ s.visitAll ts,
    s.includesType u
  | [], _, hu => absurd hu List.not_mem_nil
  | t :: ts, u, hu => by
    rw [visitAll] at hu
    rcases List.mem_append.1 hu with hu | hu
    · split at hu
      · next ht => exact includesType_of_mem_visit t ht u hu
      · exact absurd hu List.not_mem_nil
    · exact includesType_of_mem_visitAll ts u hu

end

theorem includesType_of_mem_registered {d : Definition} (hd : d ∈ s.registered definitions l) :
    s.includesType d.type := by
  have htype : d.type ∈ s.surface definitions l.assembly := by
    rw [← registered_types]
    exact List.mem_map_of_mem hd
  obtain ⟨m, -, htype⟩ := List.mem_flatMap.1 htype
  exact (List.mem_append.1 htype).elim (includesType_of_mem_visitAll _ _)
    (includesType_of_mem_visitAll _ _)

/-- What an exported type leads to is brought if it takes part. -/
theorem mem_registered_of_forwarded? {r : TypeRef} (hr : r ∈ l.assembly.exported) {d : Definition}
    (hd : forwarded? definitions r = some d) (hincluded : s.includesType d.type) :
    d ∈ s.registered definitions l := by
  obtain ⟨m, hm, hr⟩ := List.mem_flatMap.1 hr
  have hadmitted : d ∈ (m.exported.filterMap (forwarded? definitions)).flatMap s.admitted := by
    refine List.mem_flatMap.2 ⟨d, List.mem_filterMap.2 ⟨r, hr, hd⟩, ?_⟩
    obtain ⟨id, ⟨desc, f, g, ms, nested⟩⟩ := d
    rw [admitted, if_pos hincluded, expand]
    exact List.mem_cons_self
  rw [registered]
  generalize 0 = position, l.assembly.modules = modules at hm ⊢
  induction modules generalizing position with
  | nil => cases hm
  | cons m' ms ih =>
    rw [registeredFrom]
    rcases List.mem_cons.1 hm with rfl | hm
    · exact List.mem_append_left _ (List.mem_append_right _ hadmitted)
    · exact List.mem_append_right _ (ih _ hm)

end Selection

/-! ## Order of first occurrence -/

theorem takeWhile_ne_append {α : Type} [BEq α] [LawfulBEq α] {pre post : List α} {b : α}
    (hpre : b ∉ pre) : (pre ++ b :: post).takeWhile (· != b) = pre := by
  have hpos : ∀ x ∈ pre, (x != b) = true := by
    intro x hx
    rw [bne_iff_ne]
    rintro rfl
    exact hpre hx
  rw [List.takeWhile_append_of_pos hpos]
  simp

/-- What stands before the first `b` in a list stands before it without the repetitions too. -/
theorem exists_lt_eraseDups_iff {α : Type} [BEq α] [LawfulBEq α] {xs : List α} {a b : α} {k : Nat}
    (hk : xs.eraseDups[k]? = some b) :
    (∃ j < k, xs.eraseDups[j]? = some a) ↔ a ∈ xs.takeWhile (· != b) := by
  obtain ⟨pre, post, rfl, hpre⟩ :=
    List.eq_append_cons_of_mem (List.mem_eraseDups.1 (List.mem_of_getElem? hk))
  obtain ⟨rest, hrest⟩ : ∃ rest, (pre ++ b :: post).eraseDups = pre.eraseDups ++ b :: rest := by
    rw [List.eraseDups_append, List.cons_removeAll, if_pos (by simpa using hpre),
      List.eraseDups_cons]
    exact ⟨_, rfl⟩
  have hnodup := nodup_eraseDups (pre ++ b :: post)
  rw [hrest] at hk hnodup
  obtain rfl : k = pre.eraseDups.length := by
    refine (List.getElem?_inj (List.getElem?_eq_some_iff.1 hk).1 hnodup).1 ?_
    rw [hk, List.getElem?_append_right (Nat.le_refl _)]
    simp
  rw [takeWhile_ne_append hpre, hrest, ← List.mem_eraseDups]
  constructor
  · rintro ⟨j, hj, ha⟩
    rw [List.getElem?_append_left hj] at ha
    exact List.mem_of_getElem? ha
  · intro ha
    obtain ⟨j, hj⟩ := List.mem_iff_getElem?.1 ha
    have hlt := (List.getElem?_eq_some_iff.1 hj).1
    exact ⟨j, hlt, by rw [List.getElem?_append_left hlt, hj]⟩

/-! ## The tree -/

/-- The element that belongs to a side. -/
def Side.pick {α : Type} (left right : α) : Side → α
  | .left => left
  | .right => right

/-- An exported type of the assembly leads straight to the definition, which is nested and takes
part. -/
def Selection.LeadsInto (s : Selection) (definitions : DefinitionId → Option TypeDefinition)
    (a : Assembly) (d : Definition) : Prop :=
  (∃ r ∈ a.exported, forwarded? definitions r = some d) ∧ s.includesType d.type ∧ d.type.isNested

/-- On this side no node has a nested type but behind the node of its declaring type, which is
brought itself, takes part, and has a type on this side. -/
def NestsBehind (s : Selection) (side : Side) (brought : List Definition) (nodes : List TypeNode) :
    Prop :=
  ∀ (k : Nat) (n : TypeNode) (d : Definition), nodes[k]? = some n → n.types.get? side = some d →
    d.type.isNested →
    ∃ p ∈ brought, p.Declares d ∧ s.includesType p.type ∧
      ∃ j < k, ∃ n' : TypeNode, nodes[j]? = some n' ∧ n'.path = p.path ∧
        (n'.types.get? side).isSome

theorem Definition.isNested_iff (d : Definition) : d.type.isNested ↔ d.path.tail ≠ [] :=
  d.type.isNested_iff

theorem Definition.Declares.path_tail {p d : Definition} (h : p.Declares d)
    (hp : p.type.Resembles) : d.path.tail = p.path := by
  obtain ⟨i, -, hi⟩ := h
  exact hp.path_tail (List.mem_of_getElem? hi)

/-- If something of the path of the declaring type stands before every root that is nested, it
stands before every nested definition: the first one of its path is a root or stands behind one that
declares it. -/
theorem Grounded.tail_mem_takeWhile {root : Definition → Prop} {ds : List Definition}
    (hds : Grounded (fun d => d.type.isNested = false ∨ root d) ds)
    (hresembles : ∀ d ∈ ds, d.type.Resembles)
    (hroot : ∀ d, root d → d.path.tail ∈ (ds.map Definition.path).takeWhile (· != d.path))
    {d : Definition} (hd : d ∈ ds) (hnested : d.type.isNested) :
    d.path.tail ∈ (ds.map Definition.path).takeWhile (· != d.path) := by
  obtain ⟨pre, post, hsplit, hpre⟩ :=
    List.eq_append_cons_of_mem (List.mem_map_of_mem (f := Definition.path) hd)
  obtain ⟨before, rest, rfl, rfl, hrest⟩ := List.map_eq_append_iff.1 hsplit
  obtain ⟨first, after, rfl, hfirst, -⟩ := List.map_eq_cons_iff.1 hrest
  rcases hds.split with (htop | hfirst') | ⟨p, hp, hdeclares⟩
  · rw [d.isNested_iff, ← hfirst, ← first.isNested_iff, htop] at hnested
    cases hnested
  · exact hfirst ▸ hroot first hfirst'
  · rw [hsplit, takeWhile_ne_append hpre, ← hfirst,
      hdeclares.path_tail (hresembles p (List.mem_append_left _ hp))]
    exact List.mem_map_of_mem hp

section Sides

variable {ls rs : List Definition} {side : Side} {d : Definition}

theorem Side.mem_append_of_mem_pick (h : d ∈ side.pick ls rs) : d ∈ ls ++ rs := by
  cases side with
  | left => exact List.mem_append_left _ h
  | right => exact List.mem_append_right _ h

theorem Side.mem_map_of_mem_pick (h : d ∈ side.pick ls rs) :
    (side, d) ∈ ls.map (.left, ·) ++ rs.map (.right, ·) := by
  cases side with
  | left => exact List.mem_append_left _ (List.mem_map_of_mem h)
  | right => exact List.mem_append_right _ (List.mem_map_of_mem h)

namespace Joined

variable {s : Selection} {nodes : BucketIndex TypeNode}
  (h : Joined s (ls.map (.left, ·) ++ rs.map (.right, ·)) nodes)

include h

theorem get?_eq {n : TypeNode} (hn : n ∈ nodes.entries) (side : Side) :
    n.types.get? side = ((side.pick ls rs).filter (·.path == n.path)).getLast? := by
  cases side with
  | left => exact (h.sides hn .left).trans (latest_left _ _ _)
  | right => exact (h.sides hn .right).trans (latest_right _ _ _)

/-- The node of what is brought on a side has a type on that side. -/
theorem exists_get? (hd : d ∈ side.pick ls rs) {n : TypeNode} (hn : n ∈ nodes.entries)
    (hpath : n.path = d.path) : ∃ e, n.types.get? side = some e ∧ e.path = d.path := by
  have hmem : d ∈ (side.pick ls rs).filter (·.path == d.path) :=
    List.mem_filter.2 ⟨hd, beq_self_eq_true d.path⟩
  rw [h.get?_eq hn, hpath]
  obtain ⟨e, he⟩ := Option.isSome_iff_exists.1 (List.getLast?_isSome.2 (List.ne_nil_of_mem hmem))
  exact ⟨e, he, beq_iff_eq.1 (List.mem_filter.1 (List.mem_of_getLast? he)).2⟩

theorem paths_eq : nodes.entries.map TypeNode.path =
    ((ls ++ rs).map Definition.path).eraseDups := by
  simpa only [List.map_append, List.map_map, Function.comp_def] using h.paths

/-- Before a node is a node of the path exactly if the path stands before the path of the node in
what is brought. -/
theorem exists_node_before_iff {k : Nat} {n : TypeNode} (hk : nodes.entries[k]? = some n)
    (path : List (String × String)) :
    (∃ j < k, ∃ n', nodes.entries[j]? = some n' ∧ n'.path = path) ↔
      path ∈ ((ls ++ rs).map Definition.path).takeWhile (· != n.path) := by
  have hat : ((ls ++ rs).map Definition.path).eraseDups[k]? = some n.path := by
    rw [← h.paths_eq, List.getElem?_map, hk]
    rfl
  rw [← exists_lt_eraseDups_iff hat, ← h.paths_eq]
  simp only [List.getElem?_map, Option.map_eq_some_iff]

/-- Only what is neither at the top level nor behind its declaring type decides. -/
theorem nestsBehind_iff {straight : Side → Definition → Prop}
    (hbrought : ∀ d ∈ ls ++ rs, d.type.Resembles ∧ s.includesType d.type)
    (hgrounded : ∀ side : Side,
      Grounded (fun d => d.type.isNested = false ∨ straight side d) (side.pick ls rs))
    (hstraight : ∀ side d, straight side d → d ∈ side.pick ls rs ∧ d.type.isNested) :
    (∀ side : Side, NestsBehind s side (side.pick ls rs) nodes.entries) ↔
      ∀ side d, straight side d →
        d.path.tail ∈ ((ls ++ rs).map Definition.path).takeWhile (· != d.path) ∧
          (((side.pick ls rs).filter (·.path == d.path)).getLast? = some d →
            ∃ p ∈ side.pick ls rs, p.Declares d) := by
  have hparent {side : Side} {p d : Definition} (hp : p ∈ side.pick ls rs) (hd : p.Declares d) :
      d.path.tail = p.path := hd.path_tail (hbrought p (Side.mem_append_of_mem_pick hp)).1
  constructor
  · intro hnests side d hd
    obtain ⟨hd, hnested⟩ := hstraight side d hd
    obtain ⟨n, hn, hpath⟩ := h.exists_node (Side.mem_map_of_mem_pick hd)
    obtain ⟨k, hk⟩ := List.mem_iff_getElem?.1 hn
    obtain ⟨e, he, hepath⟩ := h.exists_get? hd hn hpath
    rw [d.isNested_iff, ← hepath, ← e.isNested_iff] at hnested
    obtain ⟨p, hp, hdeclares, -, j, hj, n', hn', hpath', -⟩ := hnests side k n e hk he hnested
    refine ⟨?_, fun hlast => ⟨p, hp, ?_⟩⟩
    · have hbefore := (h.exists_node_before_iff hk p.path).1 ⟨j, hj, n', hn', hpath'⟩
      rwa [← hparent hp hdeclares, hepath, hpath] at hbefore
    · rw [h.get?_eq hn, hpath, hlast, Option.some.injEq] at he
      rwa [he]
  · intro hstands side k n d hk hd hnested
    have hn := List.mem_of_getElem? hk
    have hlast := (h.get?_eq hn side).symm.trans hd
    obtain ⟨hdmem, hpath⟩ := List.mem_filter.1 (List.mem_of_getLast? hlast)
    rw [beq_iff_eq] at hpath
    have hboth : Grounded (fun d => d.type.isNested = false ∨ ∃ side, straight side d) (ls ++ rs) :=
      ((hgrounded .left).mono fun d _ hd => hd.imp_right fun hd => ⟨.left, hd⟩).append
        ((hgrounded .right).mono fun d _ hd => hd.imp_right fun hd => ⟨.right, hd⟩)
    have hbefore := hboth.tail_mem_takeWhile (fun d hd => (hbrought d hd).1)
      (fun d ⟨side, hd⟩ => (hstands side d hd).1) (Side.mem_append_of_mem_pick hdmem) hnested
    obtain ⟨p, hp, hdeclares⟩ : ∃ p ∈ side.pick ls rs, p.Declares d := by
      obtain ⟨before, after, hsplit⟩ := List.append_of_mem hdmem
      rcases (hsplit ▸ hgrounded side).split with (htop | hd') | ⟨p, hp, hdeclares⟩
      · rw [htop] at hnested
        cases hnested
      · exact (hstands side d hd').2 (hpath ▸ hlast)
      · exact ⟨p, hsplit ▸ List.mem_append_left _ hp, hdeclares⟩
    rw [hparent hp hdeclares, hpath] at hbefore
    obtain ⟨j, hj, n', hn', hpath'⟩ := (h.exists_node_before_iff hk p.path).2 hbefore
    obtain ⟨e, he, -⟩ := h.exists_get? hp (List.mem_of_getElem? hn') hpath'
    have hincluded := (hbrought p (Side.mem_append_of_mem_pick hp)).2
    exact ⟨p, hp, hdeclares, hincluded, j, hj, n', hn', hpath', by rw [he]; rfl⟩

end Joined

end Sides

/-- No nested type stands anywhere but behind its declaring type, exactly if that holds of those
that exported types lead straight to: in the order of first occurrence something of the path of the
declaring type is before them, and the declaring type is brought as well if they are the last of
their path. -/
theorem SurfaceTree.nested_ofBuilds (s : Selection)
    (definitions : DefinitionId → Option TypeDefinition) (left right : Loaded)
    (hleft : left.assembly.OfDeclaration) (hright : right.assembly.OfDeclaration)
    (hdefinitions : ∀ id t, definitions id = some t → t.OfDeclaration) :
    let brought (side : Side) := s.registered definitions (side.pick left right).bound
    (∀ side : Side, NestsBehind s side (brought side)
      (SurfaceTree.ofBuilds s definitions left right).types) ↔
      ∀ (side : Side) (d : Definition),
        s.LeadsInto definitions (side.pick left right).assembly d →
        d.path.tail ∈
            ((brought .left ++ brought .right).map Definition.path).takeWhile (· != d.path) ∧
          (((brought side).filter (·.path == d.path)).getLast? = some d →
            ∃ p ∈ brought side, p.Declares d) := by
  intro brought
  have hpick (side : Side) : brought side = side.pick (s.registered definitions left.bound)
      (s.registered definitions right.bound) := by
    cases side <;> rfl
  have hroots {l : Loaded} (hl : l.assembly.OfDeclaration) :
      Grounded (fun d => d.type.isNested = false ∨ s.LeadsInto definitions l.assembly d)
        (s.registered definitions l.bound) := by
    refine (s.grounded_registered definitions l.bound).mono fun d hd hroot => ?_
    rcases hroot with htop | ⟨r, hr, hforwarded⟩
    · exact .inl (hl.bound.isNested_topLevel htop)
    · rw [l.exported_bound] at hr
      cases hnested : d.type.isNested with
      | false => exact .inl rfl
      | true =>
        exact .inr ⟨⟨r, hr, hforwarded⟩, Selection.includesType_of_mem_registered hd, hnested⟩
  have hleads {l : Loaded} {d : Definition} (h : s.LeadsInto definitions l.assembly d) :
      d ∈ s.registered definitions l.bound ∧ d.type.isNested := by
    obtain ⟨⟨r, hr, hd⟩, hincluded, hnested⟩ := h
    rw [← l.exported_bound] at hr
    exact ⟨Selection.mem_registered_of_forwarded? hr hd hincluded, hnested⟩
  have hresembles : ∀ d ∈ s.registered definitions left.bound ++
      s.registered definitions right.bound, d.type.Resembles ∧ s.includesType d.type := by
    intro d hd
    rcases List.mem_append.1 hd with hd | hd
    · exact ⟨Selection.resembles_of_mem_registered hleft hdefinitions hd,
        Selection.includesType_of_mem_registered hd⟩
    · exact ⟨Selection.resembles_of_mem_registered hright hdefinitions hd,
        Selection.includesType_of_mem_registered hd⟩
  have hjoined := joined_ofBuilds s definitions left right fun d hd => (hresembles d hd).1.chain
  simp only [hpick]
  refine hjoined.nestsBehind_iff hresembles (fun side => ?_) fun side d hd => ?_
  · cases side with
    | left => exact hroots hleft
    | right => exact hroots hright
  · cases side with
    | left => exact hleads hd
    | right => exact hleads hd

/-- An assembly with a type `Shell` of this visibility and a public type inside. -/
def shellHome (visibility : UInt32) : Loaded :=
  let name : AssemblyName := ⟨"N", .zero, none⟩
  let inner := (TypeDeclaration.hidden "Inner").visibility TypeDefinition.nestedPublicFlag
  let shell := ((TypeDeclaration.hidden "Shell").visibility visibility).nest inner
  ⟨⟨0, 9⟩, AssemblyDeclaration.build ⟨name, [AssemblyDeclaration.mainModule name [shell] []]⟩⟩

/-- The definitions of the other assembly. -/
def shellDefinitions (visibility : UInt32) (id : DefinitionId) : Option TypeDefinition :=
  if id.assembly = (shellHome visibility).id then
    (shellHome visibility).assembly.definitionAt? id.position
  else none

def shellRef : TypeRef :=
  .mk "" "Shell" (.assembly ⟨"N", .zero, none⟩)
    (.resolved ⟨⟨0, 9⟩, [0]⟩ (.mk "" "Shell" (.assembly ⟨"N", .zero, none⟩) .definition))

/-- The nested type, by a reference of its own. -/
def innerRef : TypeRef :=
  .mk "" "Inner" (.nested (.topLevel ⟨"N", .zero, none⟩ "" "Shell"))
    (.resolved ⟨⟨0, 9⟩, [0, 0]⟩ (.mk "" "Inner"
      (.nested (.mk "" "Shell" (.assembly ⟨"N", .zero, none⟩) .definition)) .definition))

/-- An assembly that has nothing but exported types. -/
def exporting (number : Nat) (exported : List TypeRef) : Loaded :=
  let name : AssemblyName := ⟨"L", .zero, none⟩
  ⟨⟨0, number⟩, AssemblyDeclaration.build ⟨name,
    [AssemblyDeclaration.mainModule name [] exported]⟩⟩

/-- An exported type leads to a public type, and the next one to the type that is nested in it. -/
theorem SurfaceTree.nested_ofBuilds_exporting :
    let definitions := shellDefinitions TypeDefinition.publicFlag
    let left := exporting 0 [shellRef, innerRef]
    let right := exporting 1 []
    (∃ d, Selection.visible.LeadsInto definitions left.assembly d) ∧
      ∀ side : Side, NestsBehind .visible side
        (Selection.visible.registered definitions (side.pick left right).bound)
        (SurfaceTree.ofBuilds .visible definitions left right).types := by
  intro definitions left right
  have hdefinitions : ∀ id t, definitions id = some t → t.OfDeclaration := by
    intro id t ht
    obtain ⟨-, ht⟩ := Option.ite_none_right_eq_some.1 ht
    exact ⟨_, _, ⟨_, rfl⟩, ht⟩
  have hexported : left.assembly.exported = [shellRef, innerRef] := rfl
  refine ⟨⟨_, ⟨innerRef, by simp [hexported], rfl⟩, by decide, by decide⟩, ?_⟩
  refine (SurfaceTree.nested_ofBuilds .visible definitions left right ⟨_, rfl⟩ ⟨_, rfl⟩
    hdefinitions).2 fun side d hd => ?_
  obtain ⟨⟨r, hr, hd⟩, -, hnested⟩ := hd
  cases side with
  | right => cases hr
  | left =>
    rw [Side.pick, hexported] at hr
    simp only [List.mem_cons, List.not_mem_nil, or_false] at hr
    rcases hr with rfl | rfl
    · cases hd
      exact absurd hnested (by decide)
    · cases hd
      exact ⟨by decide +kernel, fun _ => ⟨_, List.mem_cons_self, 0, rfl, rfl⟩⟩

/-- An exported type that leads to a type inside of one that takes no part brings it alone. -/
theorem SurfaceTree.exists_not_nestsBehind :
    let definitions := shellDefinitions TypeDefinition.notPublicFlag
    let nodes := (SurfaceTree.ofBuilds .visible definitions (exporting 0 [innerRef])
      (exporting 1 [])).types
    ∃ n ∈ nodes, ∃ p d : Definition, n.types.get? .left = some d ∧ d.type.isNested ∧
      p.Declares d ∧ definitions p.id = some p.type ∧
      Selection.visible.includesType p.type = false ∧ ∀ n' ∈ nodes, n'.path ≠ p.path := by
  refine ⟨_, List.mem_cons_self, ⟨⟨⟨0, 9⟩, [0]⟩, _⟩, _, rfl, by decide, ⟨0, rfl, rfl⟩, rfl, ?_, ?_⟩
  · decide
  · decide +kernel

end ApiEvolution
