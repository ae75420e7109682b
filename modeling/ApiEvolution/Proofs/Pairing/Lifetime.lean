import ApiEvolution.Proofs.Pairing.Content
import ApiEvolution.Proofs.Pairing.Localized
import ApiEvolution.Proofs.Rules.Consulted
import ApiEvolution.Proofs.Universe.History
import ApiEvolution.Run.Comparison

/-!
# How long a tree lasts

A tree outlives the universes that its assemblies were read in. It keeps every definition that a
reference in these assemblies is bound to, but it does not look into the types that exported types
lead to. So it is judged as before if what rules consult in those types is kept as well
(`History.tree_outlives`), and otherwise it need not be (`History.exists_judge_alone_ne`).
-/

namespace ApiEvolution

/-! ## What enters a tree -/

namespace Selection

variable (s : Selection)

/-- The types that the exported types of an assembly bring into a tree. -/
def forwarded (definitions : DefinitionId → Option TypeDefinition) (a : Assembly) :
    List TypeDefinition :=
  s.visitAll (a.exported.filterMap fun t => t.target?.bind definitions)

variable {s} {definitions : DefinitionId → Option TypeDefinition} {a : Assembly}

/-- A type that an assembly brings is visited among its own types, or it is a forwarded one. -/
theorem mem_surface {t : TypeDefinition} (ht : t ∈ s.surface definitions a) :
    t ∈ s.visitAll a.topLevel ∨ t ∈ s.forwarded definitions a := by
  obtain ⟨m, hm, ht⟩ := List.mem_flatMap.1 ht
  simp only [forwarded, visitAll_eq, List.mem_flatMap, List.mem_filter, List.mem_append,
    moduleSurface, List.mem_filterMap, Assembly.exported, Assembly.topLevel] at ht ⊢
  rcases ht with ⟨u, ⟨hu, hincluded⟩, ht⟩ | ⟨u, ⟨⟨r, hr, hu⟩, hincluded⟩, ht⟩
  · exact .inl ⟨u, ⟨⟨m, hm, hu⟩, hincluded⟩, ht⟩
  · exact .inr ⟨u, ⟨⟨r, ⟨m, hm, hr⟩, hu⟩, hincluded⟩, ht⟩

end Selection

/-! ## Trees of several assemblies -/

section Lasts

variable (kept : DefinitionId → Bool)

/-- The constraints of the type are bound to nothing that is given up. -/
def TypeDefinition.Lasts (t : TypeDefinition) : Prop :=
  ∀ r ∈ GenericParameter.refsOf t.genericParameters, r.release kept = r

/-- The constraints of the method are bound to nothing that is given up. -/
def Member.Lasts (m : Member) : Prop :=
  ∀ r ∈ m.consulted, r.release kept = r

/-- Nothing that the rules consult in the node is given up. -/
abbrev TypeNode.Lasts (n : TypeNode) : Prop :=
  n.Holds (TypeDefinition.Lasts kept) (Member.Lasts kept)

/-- Gives up the definitions that are no longer kept. -/
def TypeNode.release (n : TypeNode) : TypeNode :=
  n.map (fun d => { d with type := d.type.release kept }) (Member.map (TypeRef.release kept))

variable {kept}

theorem TypeDefinition.holds_of_consulted {t : TypeDefinition}
    (h : ∀ r ∈ t.consulted, r.release kept = r) :
    t.Holds (TypeDefinition.Lasts kept) (Member.Lasts kept) :=
  ⟨fun r hr => h r (List.mem_append_left _ hr), fun m hm r hr =>
    h r (List.mem_append_right _ (List.mem_flatMap.2 ⟨m, hm, hr⟩))⟩

theorem TypeNode.Lasts.judge_release {n : TypeNode} (h : n.Lasts kept) (rules : List Rule)
    (c : Comparer) : (n.release kept).judge rules c = n.judge rules c :=
  judge_map (P := TypeDefinition.Lasts kept) (Q := Member.Lasts kept)
    (F := fun d => { d with type := d.type.release kept }) (fun _ _ hd he r => r.onTypes_release c hd he)
    (fun _ _ hm hm' r => r.onMembers_release c hm hm') h

end Lasts

namespace SurfaceTree

variable {s : Selection} {definitions : DefinitionId → Option TypeDefinition}
  {kept : DefinitionId → Bool} {tree : SurfaceTree}

/-- The tree of one assembly before its types are registered. -/
def blank (s : Selection) (l : Loaded) (side : Side) : SurfaceTree :=
  ⟨s, .single l side, .empty, [], []⟩

/-- Assemblies enter a tree one after the other. -/
def enterAll (definitions : DefinitionId → Option TypeDefinition) (tree : SurfaceTree)
    (es : List (Loaded × Side)) : SurfaceTree :=
  es.foldl (fun tree e => tree.enter definitions e.1 e.2) tree

/-- The tree of the assemblies in the order in which they enter it. -/
def ofSequence (s : Selection) (definitions : DefinitionId → Option TypeDefinition)
    (first : Loaded × Side) (rest : List (Loaded × Side)) : SurfaceTree :=
  enterAll definitions (blank s first.1 first.2) (first :: rest)

/-- Comparing two builds is the case of one assembly for each side. -/
theorem ofBuilds_eq (left right : Loaded) :
    ofBuilds s definitions left right = ofSequence s definitions (left, .left) [(right, .right)] :=
  rfl

theorem retained_enterAll (tree : SurfaceTree) (es : List (Loaded × Side)) :
    (enterAll definitions tree es).retained = tree.retained ++ es.flatMap (·.1.noticed.retained) := by
  induction es generalizing tree with
  | nil => exact (List.append_nil _).symm
  | cons e es ih =>
    have htail := ih (tree.enter definitions e.1 e.2)
    have hhead : (tree.enter definitions e.1 e.2).retained =
        tree.retained ++ e.1.noticed.retained := rfl
    rw [hhead, List.append_assoc] at htail
    exact htail

/-- What references of the assemblies are bound to is kept. -/
theorem keeps_noticed {first : Loaded × Side} {rest : List (Loaded × Side)} {e : Loaded × Side}
    (he : e ∈ first :: rest) {id : DefinitionId} (hid : id ∈ e.1.noticed.retained) :
    (ofSequence s definitions first rest).keeps id := by
  have hmem : id ∈ (ofSequence s definitions first rest).retained := by
    rw [ofSequence, retained_enterAll]
    exact List.mem_append_right _ (List.mem_flatMap.2 ⟨e, he, hid⟩)
  have hself : isWithin id id := by simp [isWithin]
  have hany : (ofSequence s definitions first rest).retained.any (isWithin · id) :=
    List.any_eq_true.2 ⟨id, hmem, hself⟩
  rw [keeps, hany, Bool.or_true, Bool.true_or]

/-- The nodes of a tree last if they did before the assembly entered, and if its own types and the
types that it forwards last. -/
theorem lasts_enter {l : Loaded} (side : Side) (hnodes : ∀ n ∈ tree.types, n.Lasts kept)
    (hown : ∀ r ∈ l.bound.assembly.typeRefs, r.release kept = r)
    (hforwarded : ∀ t ∈ tree.selection.forwarded definitions l.assembly, ∀ r ∈ t.consulted,
      r.release kept = r) :
    ∀ n ∈ (tree.enter definitions l side).types, n.Lasts kept := by
  have hconsulted : ∀ t ∈ tree.selection.surface definitions l.bound.assembly, ∀ r ∈ t.consulted,
      r.release kept = r := by
    intro t ht r hr
    rcases Selection.mem_surface ht with ht | ht
    · exact hown r (Selection.refs_of_mem_visitAll _ t ht r (TypeDefinition.mem_refs_of_consulted hr))
    · rw [Selection.forwarded, l.exported_bound] at ht
      exact hforwarded t ht r hr
  refine holds_foldl_register hnodes side fun d hd => ?_
  have hmem : d.type ∈ tree.selection.surface definitions l.bound.assembly := by
    rw [← Selection.registered_types]
    exact List.mem_map_of_mem hd
  exact TypeDefinition.holds_of_consulted (hconsulted _ hmem)

theorem lasts_enterAll {es : List (Loaded × Side)} (hnodes : ∀ n ∈ tree.types, n.Lasts kept)
    (hown : ∀ e ∈ es, ∀ r ∈ e.1.bound.assembly.typeRefs, r.release kept = r)
    (hforwarded : ∀ e ∈ es, ∀ t ∈ tree.selection.forwarded definitions e.1.assembly,
      ∀ r ∈ t.consulted, r.release kept = r) :
    ∀ n ∈ (enterAll definitions tree es).types, n.Lasts kept := by
  induction es generalizing tree with
  | nil => exact hnodes
  | cons e es ih =>
    have hhead := lasts_enter e.2 hnodes (hown e List.mem_cons_self) (hforwarded e List.mem_cons_self)
    exact ih hhead (fun e' he' => hown e' (List.mem_cons_of_mem e he'))
      fun e' he' => hforwarded e' (List.mem_cons_of_mem e he')

theorem judge_release (h : ∀ n ∈ tree.types, n.Lasts kept) (rules : List Rule) :
    (tree.release kept).judge rules = tree.judge rules := by
  have htypes : (tree.release kept).types = tree.types.map (TypeNode.release kept) := rfl
  rw [judge, htypes, List.map_map, judge]
  exact congrArg Verdict.concat (List.map_congr_left fun n hn => (h n hn).judge_release rules _)

end SurfaceTree

/-! ## Trees of assemblies that universes have loaded -/

namespace History

variable {h h' : History}

/-- In an assembly that a universe keeps nothing is bound but the references themselves. -/
theorem flat_of_mem_assemblies (hread : ∀ p a, h.read p = .ok a → a.Built) {l : Loaded}
    (hl : l ∈ h.now.assemblies) : ∀ r ∈ l.assembly.references, r.Flat := by
  obtain ⟨c, hc⟩ : ∃ c, h.now.Records False c :=
    h.records_after (fun p a ha => ⟨hread p a ha, False.elim⟩) h.calls
  exact (hc.keeps l hl).flat

theorem flat_of_definition? (hread : ∀ p a, h.read p = .ok a → a.Built) {id : DefinitionId}
    {t : TypeDefinition} (ht : h.now.definition? id = some t) : ∀ r ∈ t.refs, r.Flat := by
  intro r hr
  obtain ⟨l, hl, hat⟩ := Option.bind_eq_some_iff.1 ht
  exact flat_of_mem_assemblies hread (List.mem_of_find?_eq_some hl) r
    (Assembly.refs_of_definitionAt? hat hr)

/-- In the types that exported types lead to, nothing is bound but the references themselves. -/
theorem flat_of_forwarded {s : Selection} (hread : ∀ p a, h.read p = .ok a → a.Built)
    (hread' : ∀ p a, h'.read p = .ok a → a.Built) {a : Assembly} {t : TypeDefinition}
    (ht : t ∈ s.forwarded (definitionsOf h.now h'.now) a) : ∀ r ∈ t.refs, r.Flat := by
  intro r hr
  have hrefs := Selection.refs_of_mem_visitAll _ t ht r hr
  rw [TypeDefinition.refsOf_eq] at hrefs
  obtain ⟨u, hu, hr⟩ := List.mem_flatMap.1 hrefs
  obtain ⟨e, -, hu⟩ := List.mem_filterMap.1 hu
  obtain ⟨id, -, hid⟩ := Option.bind_eq_some_iff.1 hu
  rw [definitionsOf] at hid
  -- the definition is kept by one of the universes, the one that its number belongs to
  split at hid
  · exact flat_of_definition? hread hid r hr
  · exact flat_of_definition? hread' hid r hr

/-- No reference in the assemblies of a tree becomes a dangling one as long as the tree is there. If
what rules consult in the types that exported types lead to is kept as well, no reference that rules
consult does, and the rules say the same, whatever else is given up. -/
theorem tree_outlives (s : Selection) (rules : List Rule) (hread : ∀ p a, h.read p = .ok a → a.Built)
    (hread' : ∀ p a, h'.read p = .ok a → a.Built) (first : Loaded × Side)
    (rest : List (Loaded × Side))
    (hloaded : ∀ e ∈ first :: rest, e.1 ∈ h.now.assemblies ∨ e.1 ∈ h'.now.assemblies)
    (kept : DefinitionId → Bool) :
    let definitions := definitionsOf h.now h'.now
    let tree := SurfaceTree.ofSequence s definitions first rest
    (∀ id, tree.keeps id → kept id) →
      (∀ e ∈ first :: rest, ∀ r ∈ e.1.bound.assembly.typeRefs, r.release kept = r) ∧
      ((∀ e ∈ first :: rest, ∀ t ∈ s.forwarded definitions e.1.assembly, ∀ r ∈ t.consulted,
          ∀ id, r.target? = some id → kept id) →
        (∀ n ∈ tree.types, (∀ d ∈ n.types.toList, ∀ r ∈ GenericParameter.refsOf d.type.genericParameters,
            r.release kept = r) ∧
          ∀ p ∈ n.members.entries, ∀ m ∈ p.toList, ∀ r ∈ m.consulted, r.release kept = r) ∧
        (tree.release kept).judge rules = tree.judge rules) := by
  intro definitions tree hkept
  have hflat : ∀ e ∈ first :: rest, ∀ r ∈ e.1.assembly.references, r.Flat := fun e he =>
    (hloaded e he).elim (flat_of_mem_assemblies hread) (flat_of_mem_assemblies hread')
  have hown : ∀ e ∈ first :: rest, ∀ r ∈ e.1.bound.assembly.typeRefs, r.release kept = r :=
    fun e he r hr => Loaded.release_eq (hflat e he)
      (fun id hid => hkept id (SurfaceTree.keeps_noticed he hid)) hr
  refine ⟨hown, fun htargets => ?_⟩
  have hforwarded : ∀ e ∈ first :: rest, ∀ t ∈ s.forwarded definitions e.1.assembly,
      ∀ r ∈ t.consulted, r.release kept = r := by
    intro e he t ht r hr
    have hflat := flat_of_forwarded hread hread' ht r (TypeDefinition.mem_refs_of_consulted hr)
    exact hflat.release_eq (htargets e he t ht r hr)
  have hlasts : ∀ n ∈ tree.types, n.Lasts kept :=
    SurfaceTree.lasts_enterAll (fun _ hn => absurd hn List.not_mem_nil) hown hforwarded
  exact ⟨fun n hn => ⟨(hlasts n hn).types, (hlasts n hn).members⟩,
    SurfaceTree.judge_release hlasts rules⟩

/-! ## A type that is lent to another assembly -/

/-- The assembly that was asked for first. -/
def primary (h : History) : Loaded :=
  h.now.assemblies.headD ⟨⟨h.context, 0⟩, ⟨.simple "", []⟩⟩

theorem primary_mem (hne : h.now.assemblies.isEmpty = false) : h.primary ∈ h.now.assemblies := by
  rw [primary]
  cases hl : h.now.assemblies with
  | nil =>
    rw [hl] at hne
    cases hne
  | cons l ls => exact List.mem_cons_self

/-- A type whose type parameter is constrained by a type of the assembly of that name. -/
def constrained (t : TypeDeclaration) (name : String) : TypeDeclaration :=
  t.generic { name := "T", constraints := [.named (.topLevel (.simple name) "" "Thing")] }

/-- A class and the constraint that it has. -/
def lent (name : String) : List TypeDeclaration :=
  [.hidden "Thing", constrained (.publicClass "" "Pool") name]

/-- The library `L` has the class itself. -/
def owner : History where
  read := (Catalog.of [("L", lent "L", [])]).reader
  context := 0
  referencePaths := []
  calls := [.loadPrimary ⟨"L"⟩]

/-- The library `L` has other types, and it exports the class, which `N` has. -/
def lender (others : List TypeDeclaration) : History where
  read := (Catalog.of [("L", others, [.topLevel (.simple "N") "" "Pool"]), ("N", lent "N", [])]).reader
  context := 1
  referencePaths := [⟨"N"⟩]
  calls := [.loadPrimary ⟨"L"⟩]

def lentTree (others : List TypeDeclaration) : SurfaceTree :=
  SurfaceTree.ofBuilds .visible (definitionsOf owner.now (lender others).now) owner.primary
    (lender others).primary

theorem built_owner (p : Path) (a : Assembly) (ha : owner.read p = .ok a) : a.Built := by
  refine Catalog.built_of (fun b hb r hr => ?_) p a ha
  rw [List.mem_singleton.1 hb] at hr
  rw [List.mem_singleton.1 hr]
  rfl

theorem built_lender {others : List TypeDeclaration} (hothers : ∀ r ∈ (Assembly.of "L" others
      [.topLevel (.simple "N") "" "Pool"]).references, r.detached = r) (p : Path) (a : Assembly)
    (ha : (lender others).read p = .ok a) : a.Built := by
  refine Catalog.built_of (fun b hb r hr => ?_) p a ha
  rcases List.mem_cons.1 hb with rfl | hb
  · exact hothers r hr
  · rw [List.mem_singleton.1 hb] at hr
    rw [List.mem_singleton.1 hr]
    rfl

/-- A type that has the same constraint. -/
def keeper : TypeDeclaration :=
  constrained (.hidden "Keeper") "N"

theorem tree_outlives_keeper :
    (lentTree [keeper]).alone.judge Rule.all = (lentTree [keeper]).judge Rule.all := by
  have hbuilt : ∀ p a, (lender [keeper]).read p = .ok a → a.Built := built_lender fun r hr => by
    rcases List.mem_cons.1 hr with rfl | hr
    · rfl
    · rw [List.mem_singleton.1 hr]
      rfl
  have howner : owner.primary ∈ owner.now.assemblies := primary_mem (by cbv)
  have hlender : (lender [keeper]).primary ∈ (lender [keeper]).now.assemblies := primary_mem (by cbv)
  have hkeeps : ([(owner.primary, Side.left), ((lender [keeper]).primary, .right)].all fun e =>
      (Selection.forwarded .visible (definitionsOf owner.now (lender [keeper]).now) e.1.assembly).all
        fun t => t.consulted.all fun r => r.target?.all (lentTree [keeper]).keeps) = true := by cbv
  refine ((tree_outlives .visible Rule.all built_owner hbuilt (owner.primary, .left)
    [((lender [keeper]).primary, .right)] (fun e he => ?_) _ fun _ hid => hid).2 ?_).2
  · rcases List.mem_cons.1 he with rfl | he
    · exact .inl howner
    · rw [List.mem_singleton.1 he]
      exact .inr hlender
  · intro e he t ht r hr id hid
    have hall := List.all_eq_true.1 (List.all_eq_true.1 (List.all_eq_true.1 hkeeps e he) t ht) r hr
    rw [hid] at hall
    exact hall

/-- The constraint of a type that is lent dangles when the universes are gone, if nothing else
refers to it, and then a difference comes up that was not there. -/
theorem exists_judge_alone_ne :
    owner.primary ∈ owner.now.assemblies ∧ (lender []).primary ∈ (lender []).now.assemblies ∧
      ((lentTree []).judge Rule.all).differences = [] ∧
      ((lentTree []).alone.judge Rule.all).differences =
        [.constraint .removed "Pool" "T" "Thing"] :=
  ⟨primary_mem (by cbv), primary_mem (by cbv), by cbv, by cbv⟩

end History

end ApiEvolution
