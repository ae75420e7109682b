import ApiEvolution.Proofs.Run.Differences
import ApiEvolution.Proofs.Run.Relocation

/-!
# Forwarding changes no difference

A type that has moved comes into the tree through the forwarder in its place. It is the same type to
a comparison (`Selection.seen_visit_build`), but stands behind other types than before. That is of
no account as long as none of these leads to where the type belongs: then the types of any path are
the same, in the same order (`Relocated.typesAt_surface`), and so are the differences of a job.
-/

namespace ApiEvolution

/-! ## Definitions of one declaration -/

namespace TypeDefinition

/-- Wherever a type is declared, a comparison sees the same of it. -/
theorem seen_build (f : TypeRef → TypeRef) {scope scope' : Scope} (hpath : scope.path = scope'.path)
    (d : TypeDeclaration) : (d.build scope).seen f = (d.build scope').seen f := by
  obtain ⟨space, name, flags, gs, ms, nested⟩ := d
  have hdescriptor : (TypeRef.mk space name scope .definition).placeless =
      (TypeRef.mk space name scope' .definition).placeless :=
    TypeRef.placeless_eq_of_path (congrArg ((space, name) :: ·) hpath)
  have hmember (m : MemberDeclaration) :
      (m.build (.mk space name scope .definition)).seen f =
        (m.build (.mk space name scope' .definition)).seen f := by
    cases m <;> simp only [MemberDeclaration.build, Member.seen, hdescriptor]
  have hmembers : (ms.map (MemberDeclaration.build (.mk space name scope .definition))).map
      (Member.seen f) = (ms.map (MemberDeclaration.build (.mk space name scope' .definition))).map
        (Member.seen f) := by
    rw [List.map_map, List.map_map]
    exact List.map_congr_left fun m _ => hmember m
  simp only [TypeDeclaration.build, seen, hdescriptor, hmembers]

/-- Namespace and name of the outermost of the types that a definition is nested in, which may be
the definition itself. -/
def root? (t : TypeDefinition) : Option (String × String) :=
  t.descriptor.path.getLast?

theorem root?_build_nested (t : TypeRef) (d : TypeDeclaration) :
    (d.build (.nested t)).root? = t.path.getLast? := by
  rw [root?, TypeDeclaration.descriptor_build, TypeRef.path, Scope.path, TypeRef.path_eq t,
    List.getLast?_cons_cons]

theorem root?_build (a : AssemblyName) (d : TypeDeclaration) :
    (d.build (.assembly a)).root? = some (d.space, d.name) := by
  rw [root?, TypeDeclaration.descriptor_build]
  rfl

end TypeDefinition

namespace Selection

variable {s : Selection}

theorem Blind.includesType_build (hs : s.Blind) {scope scope' : Scope}
    (hpath : scope.path = scope'.path) (d : TypeDeclaration) :
    s.includesType (d.build scope) = s.includesType (d.build scope') := by
  rw [← hs.types id, TypeDefinition.seen_build id hpath d, hs.types]

mutual

/-- Wherever a type is declared, a comparison sees the same of what is visited in it. -/
theorem seen_visit_build (hs : s.Blind) (f : TypeRef → TypeRef) : (scope scope' : Scope) →
    scope.path = scope'.path → (d : TypeDeclaration) →
    (s.visit (d.build scope)).map (TypeDefinition.seen f) =
      (s.visit (d.build scope')).map (TypeDefinition.seen f)
  | scope, scope', hpath, ⟨space, name, flags, gs, ms, nested⟩ => by
    have hself := TypeDefinition.seen_build f hpath ⟨space, name, flags, gs, ms, nested⟩
    have hnested := seen_visitAll_build hs f (.nested (.mk space name scope .definition))
      (.nested (.mk space name scope' .definition)) (congrArg ((space, name) :: ·) hpath) nested
    exact congrArg₂ List.cons hself hnested

theorem seen_visitAll_build (hs : s.Blind) (f : TypeRef → TypeRef) : (scope scope' : Scope) →
    scope.path = scope'.path → (ds : List TypeDeclaration) →
    (s.visitAll (TypeDeclaration.buildAll scope ds)).map (TypeDefinition.seen f) =
      (s.visitAll (TypeDeclaration.buildAll scope' ds)).map (TypeDefinition.seen f)
  | _, _, _, [] => rfl
  | scope, scope', hpath, d :: ds => by
    rw [TypeDeclaration.buildAll, TypeDeclaration.buildAll, visitAll, visitAll, List.map_append,
      List.map_append, hs.includesType_build hpath d,
      seen_visitAll_build hs f scope scope' hpath ds]
    split
    · rw [seen_visit_build hs f scope scope' hpath d]
    · rfl

end

theorem seen_visitAll_twins (hs : s.Blind) (f : TypeRef → TypeRef) {ts us : List TypeDefinition}
    (h : List.Forall₂ TypeDefinition.Twins ts us) :
    (s.visitAll ts).map (TypeDefinition.seen f) = (s.visitAll us).map (TypeDefinition.seen f) := by
  induction h with
  | nil => rfl
  | cons hhead _ ih =>
    obtain ⟨d, scope, scope', hpath, rfl, rfl⟩ := hhead
    rw [visitAll, visitAll, List.map_append, List.map_append, ih, hs.includesType_build hpath d]
    split
    · rw [seen_visit_build hs f scope scope' hpath d]
    · rfl

mutual

theorem root?_of_mem_visit : (scope : Scope) → (d : TypeDeclaration) →
    ∀ t ∈ s.visit (d.build scope), t.root? = (d.build scope).root?
  | scope, ⟨space, name, flags, gs, ms, nested⟩, t, ht => by
    rcases List.mem_cons.1 ht with rfl | ht
    · rfl
    · exact root?_of_mem_visitAll (.mk space name scope .definition) nested t ht

/-- What is nested in a type has the outermost type of that type. -/
theorem root?_of_mem_visitAll : (declaring : TypeRef) → (ds : List TypeDeclaration) →
    ∀ t ∈ s.visitAll (TypeDeclaration.buildAll (.nested declaring) ds),
      t.root? = declaring.path.getLast?
  | _, [], _, ht => absurd ht List.not_mem_nil
  | declaring, d :: ds, t, ht => by
    rw [TypeDeclaration.buildAll, visitAll] at ht
    rcases List.mem_append.1 ht with ht | ht
    · split at ht
      · rw [root?_of_mem_visit (.nested declaring) d t ht, TypeDefinition.root?_build_nested]
      · exact absurd ht List.not_mem_nil
    · exact root?_of_mem_visitAll declaring ds t ht

end

theorem exists_root?_of_mem_visitAll {ts : List TypeDefinition} (h : ∀ t ∈ ts, t.Declared)
    {u : TypeDefinition} (hu : u ∈ s.visitAll ts) : ∃ t ∈ ts, u.root? = t.root? := by
  rw [visitAll_eq] at hu
  obtain ⟨t, ht, hu⟩ := List.mem_flatMap.1 hu
  have hmem : t ∈ ts := List.mem_of_mem_filter ht
  obtain ⟨d, scope, -, rfl⟩ := h t hmem
  exact ⟨_, hmem, root?_of_mem_visit scope d u hu⟩

theorem visitAll_append (s : Selection) (ts us : List TypeDefinition) :
    s.visitAll (ts ++ us) = s.visitAll ts ++ s.visitAll us := by
  rw [visitAll_eq, visitAll_eq, visitAll_eq, List.filter_append, List.flatMap_append]

end Selection

/-! ## Surfaces before and after -/

theorem TypeDefinition.root?_seen (f : TypeRef → TypeRef) (t : TypeDefinition) :
    (t.seen f).root? = t.root? :=
  congrArg List.getLast? t.descriptor.path_placeless

/-- What a module of the assembly `a` brings into a tree. -/
def ModuleDeclaration.surface (w : World) (s : Selection) (a : AssemblyName)
    (n : ModuleDeclaration) : List TypeDefinition :=
  s.visitAll (TypeDeclaration.buildAll (.assembly a) n.types) ++
    s.visitAll (n.exported.filterMap w.exported?)

namespace World

variable {w : World}

theorem surface_build (s : Selection) (d : AssemblyDeclaration) :
    w.surface s d.build = d.modules.flatMap (·.surface w s d.name) := by
  rw [surface, AssemblyDeclaration.build, List.flatMap_map]
  rfl

/-- What an exported type leads to is a definition of some assembly. -/
theorem located_of_exported? {e : TypeRef} {t : TypeDefinition} (ht : w.exported? e = some t) :
    ∃ k a p, w k = some a ∧ a.definitionAt? p = some t := by
  rw [exported?] at ht
  split at ht
  · cases ht
  · obtain ⟨x, hx, rfl⟩ := Option.map_eq_some_iff.1 ht
    obtain ⟨a, ha, hat⟩ := located_of_lookupWithin hx
    exact ⟨x.key, a, x.found.position, ha, hat⟩

end World

namespace Relocated

variable {m : Relocation} {w w' : World} {s : Selection} {k : String} {a : Assembly}

theorem seen_visitAll (h : Relocated m w w') (hw : w.Shallow Universe.maxForwards)
    {ts : List TypeDefinition} (hts : ∀ r ∈ TypeDefinition.refsOf ts, m.Spares r) :
    (s.visitAll ts).map (TypeDefinition.seen w.sight) =
      (s.visitAll ts).map (TypeDefinition.seen w'.sight) := by
  refine List.map_congr_left fun t ht => TypeDefinition.seen_congr fun r hr => ?_
  exact (h.sight_eq hw (hts r (Selection.refs_of_mem_visitAll ts t ht r hr))).symm

theorem exported?_rel (h : Relocated m w w') (hw : w.Shallow Universe.maxForwards)
    {es : List TypeRef} (hes : ∀ e ∈ es, m.Spares e) :
    List.Forall₂ TypeDefinition.Twins (es.filterMap w.exported?) (es.filterMap w'.exported?) := by
  induction es with
  | nil => exact .nil
  | cons e es ih =>
    have hrest := ih fun e' he' => hes e' (List.mem_cons_of_mem e he')
    have hrel := h.lookup_rel hw (hes e List.mem_cons_self)
    have hexported : Option.Rel TypeDefinition.Twins (w.exported? e) (w'.exported? e) := by
      rw [World.exported?, World.exported?]
      split
      · exact .none
      · generalize w.lookup e = x at hrel
        generalize w'.lookup e = x' at hrel
        cases hrel with
        | none => exact .none
        | some htwins => exact .some htwins
    rw [List.filterMap_cons, List.filterMap_cons]
    generalize w.exported? e = t at hexported
    generalize w'.exported? e = t' at hexported
    cases hexported with
    | none => exact hrest
    | some htwins => exact .cons htwins hrest

/-- A comparison sees the same of what exported types lead to. -/
theorem seen_exported (h : Relocated m w w') (hw : w.Shallow Universe.maxForwards) (hs : s.Blind)
    (ha : w k = some a) {es : List TypeRef} (hes : ∀ e ∈ es, e ∈ a.exported) :
    (s.visitAll (es.filterMap w.exported?)).map (TypeDefinition.seen w.sight) =
      (s.visitAll (es.filterMap w'.exported?)).map (TypeDefinition.seen w'.sight) := by
  have hrefs : ∀ r ∈ TypeDefinition.refsOf (es.filterMap w.exported?), m.Spares r := by
    intro r hr
    rw [TypeDefinition.refsOf_eq] at hr
    obtain ⟨t, ht, hr⟩ := List.mem_flatMap.1 hr
    obtain ⟨e, -, ht⟩ := List.mem_filterMap.1 ht
    obtain ⟨k', b, p, hb, hat⟩ := World.located_of_exported? ht
    exact h.spared k' b hb r (Assembly.refs_of_definitionAt? hat hr)
  rw [h.seen_visitAll hw hrefs]
  exact Selection.seen_visitAll_twins hs w'.sight
    (h.exported?_rel hw fun e he => h.spares_exported ha (hes e he))

theorem spares_types (h : Relocated m w w') {d : AssemblyDeclaration} (ha : w k = some d.build)
    {ds : List TypeDeclaration} (hds : ∀ e ∈ ds, e ∈ d.modules.flatMap (·.types)) :
    ∀ r ∈ TypeDefinition.refsOf (TypeDeclaration.buildAll (.assembly d.name) ds), m.Spares r := by
  intro r hr
  rw [TypeDefinition.refsOf_eq, TypeDeclaration.buildAll_eq] at hr
  obtain ⟨t, ht, hr⟩ := List.mem_flatMap.1 hr
  obtain ⟨e, he, rfl⟩ := List.mem_map.1 ht
  refine h.spared k _ ha r (List.mem_append_left _ ?_)
  rw [Assembly.typeRefs, TypeDefinition.refsOf_eq, AssemblyDeclaration.topLevel_build]
  exact List.mem_flatMap.2 ⟨_, List.mem_map_of_mem (hds e he), hr⟩

theorem seen_modules (h : Relocated m w w') (hw : w.Shallow Universe.maxForwards) (hs : s.Blind)
    {d : AssemblyDeclaration} (ha : w k = some d.build) {ns : List ModuleDeclaration}
    (hns : ∀ n ∈ ns, n ∈ d.modules) :
    (ns.flatMap (·.surface w s d.name)).map (TypeDefinition.seen w.sight) =
      (ns.flatMap (·.surface w' s d.name)).map (TypeDefinition.seen w'.sight) := by
  rw [List.map_flatMap, List.map_flatMap]
  refine List.flatMap_congr fun n hn => ?_
  have htypes := h.seen_visitAll (s := s) hw (h.spares_types ha fun e (he : e ∈ n.types) =>
    List.mem_flatMap.2 ⟨n, hns n hn, he⟩)
  have hexported := h.seen_exported hw hs ha fun e (he : e ∈ n.exported) => by
    rw [AssemblyDeclaration.exported_build]
    exact List.mem_flatMap.2 ⟨n, hns n hn, he⟩
  rw [ModuleDeclaration.surface, ModuleDeclaration.surface, List.map_append, List.map_append,
    htypes, hexported]

end Relocated

/-! ## The place of the type among the others -/

theorem typesAt_append (path : List (String × String)) (ts us : List TypeDefinition) :
    typesAt path (ts ++ us) = typesAt path ts ++ typesAt path us :=
  List.filter_append ts us

/-- Types may pass by types of other paths. -/
theorem typesAt_comm {ts us : List TypeDefinition} (h : ∀ t ∈ ts, ∀ u ∈ us, t.root? ≠ u.root?)
    (path : List (String × String)) : typesAt path (ts ++ us) = typesAt path (us ++ ts) := by
  rw [typesAt_append, typesAt_append]
  cases hts : typesAt path ts with
  | nil => exact (List.append_nil _).symm
  | cons t rest =>
    have hmem : t ∈ typesAt path ts := hts ▸ List.mem_cons_self
    obtain ⟨ht, hpath⟩ := List.mem_filter.1 hmem
    have hus : typesAt path us = [] := by
      refine List.filter_eq_nil_iff.2 fun u hu hpath' => h t ht u hu ?_
      rw [TypeDefinition.root?, TypeDefinition.root?, beq_iff_eq.1 hpath, beq_iff_eq.1 hpath']
    rw [hus]
    exact List.append_nil _

namespace Relocation

variable (m : Relocation) (w : World) (s : Selection)

/-- No exported type ahead of the forwarder leads to a definition of the same outermost type. -/
def Foremost : Prop :=
  ∀ e ∈ m.exportedAhead, ∀ t, w.exported? e = some t → t.root? ≠ some (m.type.space, m.type.name)

/-- What comes into a tree ahead of the type, wherever it is. -/
def surfaceAhead : List TypeDefinition :=
  m.modulesAhead.flatMap (·.surface w s m.origin) ++
    s.visitAll (TypeDeclaration.buildAll (.assembly m.origin) m.typesAhead)

/-- What comes into a tree behind the type, but ahead of the forwarder. -/
def surfaceBetween : List TypeDefinition :=
  s.visitAll (TypeDeclaration.buildAll (.assembly m.origin) m.typesBehind) ++
    s.visitAll (m.exportedAhead.filterMap w.exported?)

/-- What comes into a tree behind the type, wherever it is. -/
def surfaceBehind : List TypeDefinition :=
  s.visitAll (m.exportedBehind.filterMap w.exported?) ++
    m.modulesBehind.flatMap (·.surface w s m.origin)

theorem surface_before : w.surface s m.before.build =
    m.surfaceAhead w s ++ (s.visitAll [m.type.build (.assembly m.origin)] ++
      m.surfaceBetween w s) ++ m.surfaceBehind w s := by
  have hcons := s.visitAll_append [m.type.build (.assembly m.origin)]
    (m.typesBehind.map (TypeDeclaration.build (.assembly m.origin)))
  rw [List.singleton_append] at hcons
  simp only [World.surface_build, before, List.flatMap_append, List.flatMap_cons,
    ModuleDeclaration.surface, TypeDeclaration.buildAll_eq, List.map_append, List.map_cons,
    List.filterMap_append, Selection.visitAll_append, hcons, surfaceAhead, surfaceBetween,
    surfaceBehind, List.append_assoc]

theorem surface_facade {t : TypeDefinition} (ht : w.exported? m.forwarder = some t) :
    w.surface s m.facade.build = m.surfaceAhead w s ++ (m.surfaceBetween w s ++ s.visitAll [t]) ++
      m.surfaceBehind w s := by
  have hcons := s.visitAll_append [t] (m.exportedBehind.filterMap w.exported?)
  rw [List.singleton_append] at hcons
  simp only [World.surface_build, facade, List.flatMap_append, List.flatMap_cons,
    ModuleDeclaration.surface, TypeDeclaration.buildAll_eq, List.map_append,
    List.filterMap_append, List.filterMap_cons_some ht, Selection.visitAll_append, hcons,
    surfaceAhead, surfaceBetween, surfaceBehind, List.append_assoc]

end Relocation

namespace Relocated

variable {m : Relocation} {w w' : World} {s : Selection} {k : String}

theorem exported?_forwarder (h : Relocated m w w') :
    w'.exported? m.forwarder = some (m.type.build (.assembly m.target)) := by
  have hlookup := h.lookupWithin_forwarder Universe.maxForwards
  have hunbound : m.forwarder.isBound = false := rfl
  rw [World.exported?, hunbound, World.lookup, hlookup]
  rfl

theorem seen_surfaceAhead (h : Relocated m w w') (hw : w.Shallow Universe.maxForwards)
    (hs : s.Blind) (ha : w k = some m.before.build) :
    (m.surfaceAhead w s).map (TypeDefinition.seen w.sight) =
      (m.surfaceAhead w' s).map (TypeDefinition.seen w'.sight) := by
  have hmodules := h.seen_modules hw hs ha fun n (hn : n ∈ m.modulesAhead) =>
    List.mem_append_left _ hn
  have htypes := h.seen_visitAll (s := s) hw (h.spares_types ha fun d (hd : d ∈ m.typesAhead) => by
    rw [Relocation.types_before]
    exact List.mem_append_left _ (List.mem_append_right _ hd))
  rw [Relocation.surfaceAhead, Relocation.surfaceAhead, List.map_append, List.map_append]
  exact congrArg₂ (· ++ ·) hmodules htypes

theorem seen_surfaceBetween (h : Relocated m w w') (hw : w.Shallow Universe.maxForwards)
    (hs : s.Blind) (ha : w k = some m.before.build) :
    (m.surfaceBetween w s).map (TypeDefinition.seen w.sight) =
      (m.surfaceBetween w' s).map (TypeDefinition.seen w'.sight) := by
  have htypes := h.seen_visitAll (s := s) hw (h.spares_types ha fun d (hd : d ∈ m.typesBehind) => by
    rw [Relocation.types_before]
    exact List.mem_append_right _ (List.mem_cons_of_mem _ (List.mem_append_left _ hd)))
  have hexported := h.seen_exported hw hs ha fun e (he : e ∈ m.exportedAhead) => by
    rw [AssemblyDeclaration.exported_build, Relocation.exported_before]
    exact List.mem_append_left _ (List.mem_append_right _ he)
  rw [Relocation.surfaceBetween, Relocation.surfaceBetween, List.map_append, List.map_append]
  exact congrArg₂ (· ++ ·) htypes hexported

theorem seen_surfaceBehind (h : Relocated m w w') (hw : w.Shallow Universe.maxForwards)
    (hs : s.Blind) (ha : w k = some m.before.build) :
    (m.surfaceBehind w s).map (TypeDefinition.seen w.sight) =
      (m.surfaceBehind w' s).map (TypeDefinition.seen w'.sight) := by
  have hmodules := h.seen_modules hw hs ha fun n (hn : n ∈ m.modulesBehind) =>
    List.mem_append_right _ (List.mem_cons_of_mem _ hn)
  have hexported := h.seen_exported hw hs ha fun e (he : e ∈ m.exportedBehind) => by
    rw [AssemblyDeclaration.exported_build, Relocation.exported_before]
    exact List.mem_append_right _ (List.mem_append_left _ he)
  rw [Relocation.surfaceBehind, Relocation.surfaceBehind, List.map_append, List.map_append]
  exact congrArg₂ (· ++ ·) hexported hmodules

/-- The type itself, in both of its places. -/
theorem seen_type (h : Relocated m w w') (hw : w.Shallow Universe.maxForwards)
    (hs : s.Blind) (ha : w k = some m.before.build) :
    (s.visitAll [m.type.build (.assembly m.origin)]).map (TypeDefinition.seen w.sight) =
      (s.visitAll [m.type.build (.assembly m.target)]).map (TypeDefinition.seen w'.sight) := by
  have hself := h.seen_visitAll (s := s) hw (h.spares_types ha fun d (hd : d ∈ [m.type]) => by
    rw [Relocation.types_before, List.mem_singleton.1 hd]
    exact List.mem_append_right _ List.mem_cons_self)
  have hscope : (Scope.assembly m.origin).path = (Scope.assembly m.target).path := rfl
  exact hself.trans (Selection.seen_visitAll_build hs w'.sight _ _ hscope [m.type])

/-- What the type brings into a tree belongs to other paths than what it now stands behind. -/
theorem root?_ne_of_mem (h : Relocated m w w') (hm : m.Foremost w) {t u : TypeDefinition}
    (ht : t ∈ s.visitAll [m.type.build (.assembly m.origin)]) (hu : u ∈ m.surfaceBetween w s) :
    t.root? ≠ u.root? := by
  have hroot : t.root? = some (m.type.space, m.type.name) := by
    rw [← TypeDefinition.root?_build m.origin m.type]
    have hdeclared : ∀ v ∈ [m.type.build (.assembly m.origin)], v.Declared := by
      intro v hv
      exact ⟨m.type, .assembly m.origin, rfl, List.mem_singleton.1 hv⟩
    obtain ⟨v, hv, hroot⟩ := Selection.exists_root?_of_mem_visitAll hdeclared ht
    rwa [List.mem_singleton.1 hv] at hroot
  rw [hroot]
  intro hsame
  rcases List.mem_append.1 hu with hu | hu
  · rw [TypeDeclaration.buildAll_eq] at hu
    obtain ⟨v, hv, hroot⟩ := Selection.exists_root?_of_mem_visitAll (fun v hv => by
      obtain ⟨d, -, rfl⟩ := List.mem_map.1 hv
      exact ⟨d, .assembly m.origin, rfl, rfl⟩) hu
    obtain ⟨d, hd, rfl⟩ := List.mem_map.1 hv
    rw [TypeDefinition.root?_build] at hroot
    obtain ⟨hspace, hname⟩ := Prod.mk.inj (Option.some.inj (hsame.trans hroot))
    refine h.unique.types d ?_ ⟨hspace.symm, hname.symm⟩
    rw [Relocation.types_facade]
    exact List.mem_append_right _ (List.mem_append_left _ hd)
  · have hdeclared : ∀ v ∈ m.exportedAhead.filterMap w.exported?, v.Declared := by
      intro v hv
      obtain ⟨e, -, hv⟩ := List.mem_filterMap.1 hv
      obtain ⟨k', b, p, hb, hat⟩ := World.located_of_exported? hv
      exact (h.pristine k' b hb).definitionAt? hat
    obtain ⟨v, hv, hroot⟩ := Selection.exists_root?_of_mem_visitAll hdeclared hu
    obtain ⟨e, he, hv⟩ := List.mem_filterMap.1 hv
    exact hm e he v hv (hroot.symm.trans hsame.symm)

/-- After the move, the types of any path are the same, in the same order. -/
theorem typesAt_surface (h : Relocated m w w') (hw : w.Shallow Universe.maxForwards)
    (hs : s.Blind) (ha : w k = some m.before.build) (hm : m.Foremost w)
    (path : List (String × String)) :
    typesAt path ((w.surface s m.before.build).map (TypeDefinition.seen w.sight)) =
      typesAt path ((w'.surface s m.facade.build).map (TypeDefinition.seen w'.sight)) := by
  have hroots : ∀ t ∈ (s.visitAll [m.type.build (.assembly m.origin)]).map
      (TypeDefinition.seen w.sight), ∀ u ∈ (m.surfaceBetween w s).map (TypeDefinition.seen w.sight),
      t.root? ≠ u.root? := by
    intro x hx y hy
    obtain ⟨t, ht, rfl⟩ := List.mem_map.1 hx
    obtain ⟨u, hu, rfl⟩ := List.mem_map.1 hy
    rw [TypeDefinition.root?_seen, TypeDefinition.root?_seen]
    exact h.root?_ne_of_mem hm ht hu
  have hswap := typesAt_comm hroots path
  rw [m.surface_before, m.surface_facade w' s h.exported?_forwarder]
  simp only [List.map_append, typesAt_append] at hswap ⊢
  rw [hswap, h.seen_surfaceAhead hw hs ha, h.seen_surfaceBetween hw hs ha,
    h.seen_surfaceBehind hw hs ha, h.seen_type hw hs ha]

end Relocated

end ApiEvolution
