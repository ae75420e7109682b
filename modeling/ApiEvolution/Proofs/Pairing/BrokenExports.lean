import Mathlib.Data.List.Perm.Basic
import ApiEvolution.Proofs.Pairing.Localized
import ApiEvolution.Rules.Judge

/-!
# Exported types that lead nowhere

An exported type that is bound to no definition brings nothing into a tree. So an assembly may lose
any of them (`Loaded.Loses`), wherever they stand among types and other exported types: the nodes of
the tree stay as they are, with everything in them, and so does what the rules say about them; one
warning is missing for each exported type that was lost. The main statement is
`SurfaceTree.ofBuilds_losing`.
-/

namespace ApiEvolution

/-! ## Losing exported types -/

/-- The list `kept` is `whole` without `lost`, and all that was lost is broken. -/
inductive Thinned (broken : TypeRef → Prop) : (whole kept lost : List TypeRef) → Prop
  | nil : Thinned broken [] [] []
  | keep {whole kept lost : List TypeRef} (t : TypeRef) :
      Thinned broken whole kept lost → Thinned broken (t :: whole) (t :: kept) lost
  | lose {whole kept lost : List TypeRef} {t : TypeRef} : broken t →
      Thinned broken whole kept lost → Thinned broken (t :: whole) kept (t :: lost)

/-- The modules are the same but for exported types that were lost. -/
inductive ModulesThinned (broken : TypeRef → Prop) :
    (whole kept : List Module) → (lost : List TypeRef) → Prop
  | nil : ModulesThinned broken [] [] []
  | cons {name : String} {types : List TypeDefinition} {ms ms' : List Module}
      {exported kept lost lost' : List TypeRef} :
      Thinned broken exported kept lost → ModulesThinned broken ms ms' lost' →
      ModulesThinned broken (⟨name, types, exported⟩ :: ms) (⟨name, types, kept⟩ :: ms')
        (lost ++ lost')

namespace Thinned

variable {broken : TypeRef → Prop} {whole kept lost : List TypeRef}

theorem append {whole' kept' lost' : List TypeRef} (h : Thinned broken whole kept lost)
    (h' : Thinned broken whole' kept' lost') :
    Thinned broken (whole ++ whole') (kept ++ kept') (lost ++ lost') := by
  induction h with
  | nil => exact h'
  | keep t _ ih => exact .keep t ih
  | lose hbroken _ ih => exact .lose hbroken ih

theorem sublist (h : Thinned broken whole kept lost) : kept.Sublist whole := by
  induction h with
  | nil => exact .slnil
  | keep t _ ih => exact ih.cons_cons t
  | @lose _ _ _ t _ _ ih => exact ih.cons t

theorem perm (h : Thinned broken whole kept lost) : whole.Perm (kept ++ lost) := by
  induction h with
  | nil => exact .nil
  | keep t _ ih => exact ih.cons t
  | lose _ _ ih => exact (ih.cons _).trans List.perm_middle.symm

theorem broken_of_mem (h : Thinned broken whole kept lost) : ∀ t ∈ lost, broken t := by
  induction h with
  | nil => exact nofun
  | keep _ _ ih => exact ih
  | lose hbroken _ ih => exact List.forall_mem_cons.2 ⟨hbroken, ih⟩

/-- What is lost had no part in what is made of the list. -/
theorem filterMap_eq {α : Type} {f : TypeRef → Option α} (h : Thinned broken whole kept lost)
    (hf : ∀ t, broken t → f t = none) : kept.filterMap f = whole.filterMap f := by
  induction h with
  | nil => rfl
  | keep t _ ih => rw [List.filterMap_cons, List.filterMap_cons, ih]
  | lose hbroken _ ih => rw [List.filterMap_cons, hf _ hbroken, ih]

end Thinned

namespace ModulesThinned

variable {broken : TypeRef → Prop} {ms ms' : List Module} {lost : List TypeRef}

theorem types_eq (h : ModulesThinned broken ms ms' lost) :
    ms'.flatMap (·.types) = ms.flatMap (·.types) := by
  induction h with
  | nil => rfl
  | cons _ _ ih => rw [List.flatMap_cons, List.flatMap_cons, ih]

theorem exported (h : ModulesThinned broken ms ms' lost) :
    Thinned broken (ms.flatMap (·.exported)) (ms'.flatMap (·.exported)) lost := by
  induction h with
  | nil => exact .nil
  | cons hm _ ih => exact hm.append ih

/-- Going through the types of the modules comes to the same, with and without what is lost. -/
theorem mapM_types {σ : Type} (h : ModulesThinned broken ms ms' lost)
    (f : List TypeDefinition → StateM σ (List TypeDefinition)) (n : σ) :
    let through (m : Module) : StateM σ Module := do return { m with types := ← f m.types }
    ((ms'.mapM through).run n).2 = ((ms.mapM through).run n).2 ∧
      ModulesThinned broken ((ms.mapM through).run n).1 ((ms'.mapM through).run n).1 lost := by
  intro through
  induction h generalizing n with
  | nil => exact ⟨rfl, .nil⟩
  | @cons _ types _ _ _ _ _ _ hm _ ih =>
    obtain ⟨hstate, hmodules⟩ := ih ((f types).run n).2
    rw [List.mapM_cons, List.mapM_cons]
    exact ⟨hstate, .cons hm hmodules⟩

theorem registeredFrom_eq {s : Selection} {definitions : DefinitionId → Option TypeDefinition}
    {id : AssemblyId} (position : Nat) (h : ModulesThinned broken ms ms' lost)
    (hbroken : ∀ t, broken t → Selection.forwarded? definitions t = none) :
    s.registeredFrom definitions id position ms' = s.registeredFrom definitions id position ms := by
  induction h generalizing position with
  | nil => rfl
  | cons hm _ ih =>
    rw [Selection.registeredFrom, Selection.registeredFrom, ih, hm.filterMap_eq hbroken]

end ModulesThinned

mutual

/-- Where a reference is located depends on the name and the types of the assembly. -/
theorem Assembly.locate_congr {a b : Assembly} (hname : a.name = b.name)
    (htypes : a.topLevel = b.topLevel) : (t : TypeRef) → a.locate t = b.locate t
  | .mk space name scope _ => Assembly.locateIn_congr hname htypes space name scope

theorem Assembly.locateIn_congr {a b : Assembly} (hname : a.name = b.name)
    (htypes : a.topLevel = b.topLevel) (space name : String) : (s : Scope) →
    a.locateIn space name s = b.locateIn space name s
  | .assembly asked => by
    rw [locateIn, locateIn, hname, find?, find?, htypes]
  | .nested d => by
    rw [locateIn, locateIn, Assembly.locate_congr hname htypes d]

end

/-- The build is the same but for exported types that were lost, none of which is bound to a
definition. -/
structure Loaded.Loses (definitions : DefinitionId → Option TypeDefinition) (whole : Loaded)
    (lost : List TypeRef) (kept : Loaded) : Prop where
  id : kept.id = whole.id
  name : kept.assembly.name = whole.assembly.name
  modules : ModulesThinned (fun t => Selection.forwarded? definitions t = none)
    whole.assembly.modules kept.assembly.modules lost

/-- The warning that an exported type of the build is bound to no definition. -/
def Loaded.brokenExport (l : Loaded) (t : TypeRef) : Diagnostic :=
  ⟨.exportUnresolved t.fullName, some l.assembly.name.name⟩

namespace Loaded.Loses

variable {definitions : DefinitionId → Option TypeDefinition} {whole kept : Loaded}
  {lost : List TypeRef}

/-- What is lost has no part in how references are bound, and nothing else is noticed. -/
theorem bound (h : whole.Loses definitions lost kept) :
    kept.noticed = whole.noticed ∧ whole.bound.Loses definitions lost kept.bound := by
  have hbind : ApiEvolution.bindLocally kept = ApiEvolution.bindLocally whole := by
    funext t n
    have hlocate := Assembly.locate_congr h.name h.modules.types_eq
    simp only [ApiEvolution.bindLocally, h.id, h.name, hlocate]
  obtain ⟨hstate, hmodules⟩ := h.modules.mapM_types
    (TypeDefinition.traverseAll (ApiEvolution.bindLocally whole)) {}
  rw [noticed, noticed, Loaded.bound, Loaded.bound, Loaded.bindLocally, Loaded.bindLocally, hbind]
  exact ⟨hstate, h.id, h.name, hmodules⟩

theorem registered_eq (h : whole.Loses definitions lost kept) (s : Selection) :
    s.registered definitions kept = s.registered definitions whole := by
  rw [Selection.registered, Selection.registered, h.id]
  exact h.modules.registeredFrom_eq 0 fun _ hbroken => hbroken

/-- Of the warnings about exported types, those about what is lost are missing. -/
theorem brokenExports (h : whole.Loses definitions lost kept) :
    (kept.brokenExports definitions).Sublist (whole.brokenExports definitions) ∧
      (whole.brokenExports definitions).Perm
        (kept.brokenExports definitions ++ lost.map whole.brokenExport) := by
  have hexported : Thinned (fun t => Selection.forwarded? definitions t = none)
      whole.assembly.exported kept.assembly.exported lost := h.modules.exported
  have hlost : lost.filter (fun t => (Selection.forwarded? definitions t).isNone) = lost :=
    List.filter_eq_self.2 fun t ht => by rw [hexported.broken_of_mem t ht]; rfl
  rw [Loaded.brokenExports, Loaded.brokenExports, h.name]
  refine ⟨(hexported.sublist.filter _).map _, ?_⟩
  have hperm := (hexported.perm.filter fun t =>
    (Selection.forwarded? definitions t).isNone).map whole.brokenExport
  rwa [List.filter_append, List.map_append, hlost] at hperm

end Loaded.Loses

/-! ## The tree without them -/

/-- The tree `rest` is `whole` but for the diagnostics in `lost`. -/
structure SurfaceTree.Misses (whole : SurfaceTree) (lost : List Diagnostic) (rest : SurfaceTree) :
    Prop where
  selection : rest.selection = whole.selection
  nodes : rest.nodes = whole.nodes
  retained : rest.retained = whole.retained
  sublist : rest.diagnostics.Sublist whole.diagnostics
  perm : whole.diagnostics.Perm (rest.diagnostics ++ lost)

namespace SurfaceTree.Misses

variable {definitions : DefinitionId → Option TypeDefinition} {whole rest : SurfaceTree}
  {lost : List Diagnostic}

/-- What is reported depends on the nodes. -/
theorem judge_eq (h : whole.Misses lost rest) (rules : List Rule) :
    rest.judge rules = whole.judge rules := by
  rw [judge, judge, types, types, h.nodes, h.selection]

/-- One assembly enters both trees, here without some of its exported types. -/
theorem enter (h : whole.Misses lost rest) {l l' : Loaded} {exports : List TypeRef}
    (hl : l.Loses definitions exports l') (side : Side) :
    (whole.enter definitions l side).Misses (lost ++ exports.map l.brokenExport)
      (rest.enter definitions l' side) := by
  obtain ⟨hnoticed, hbound⟩ := hl.bound
  obtain ⟨hsublist, hperm⟩ := hbound.brokenExports
  rw [enter_eq, enter_eq, hnoticed, h.selection, h.nodes, h.retained, hbound.registered_eq]
  refine ⟨rfl, rfl, rfl, (h.sublist.append_right _).append hsublist, ?_⟩
  refine List.perm_iff_count.2 fun d => ?_
  have htree := h.perm.count_eq d
  have hexports : List.count d (l.bound.brokenExports definitions) =
      List.count d (l'.bound.brokenExports definitions ++ exports.map l.brokenExport) :=
    hperm.count_eq d
  simp only [List.count_append] at htree hexports ⊢
  omega

end SurfaceTree.Misses

/-- Exported types that are bound to no definition may be lost from both builds. No node changes,
nor what is retained, nor what any rules say; the diagnostics are the same, in the same order, but
for one mapping warning for each exported type that was lost. -/
theorem SurfaceTree.ofBuilds_losing (s : Selection)
    (definitions : DefinitionId → Option TypeDefinition) {left right left' right' : Loaded}
    {lostLeft lostRight : List TypeRef} (hleft : left.Loses definitions lostLeft left')
    (hright : right.Loses definitions lostRight right') :
    let whole := ofBuilds s definitions left right
    let rest := ofBuilds s definitions left' right'
    let lost := lostLeft.map left.brokenExport ++ lostRight.map right.brokenExport
    rest.nodes = whole.nodes ∧ rest.retained = whole.retained ∧
      (∀ rules, rest.judge rules = whole.judge rules) ∧
      rest.diagnostics.Sublist whole.diagnostics ∧
      whole.diagnostics.Perm (rest.diagnostics ++ lost) ∧
      ∀ d ∈ lost, d.category = .mapping ∧ d.severity = .warning := by
  intro whole rest lost
  have hempty : (⟨s, .single left .left, .empty, [], []⟩ : SurfaceTree).Misses []
      ⟨s, .single left' .left, .empty, [], []⟩ := ⟨rfl, rfl, rfl, .slnil, .nil⟩
  have hwhole : whole.Misses lost rest := (hempty.enter hleft .left).enter hright .right
  refine ⟨hwhole.nodes, hwhole.retained, hwhole.judge_eq, hwhole.sublist, hwhole.perm, ?_⟩
  intro d hd
  rcases List.mem_append.1 hd with hd | hd <;>
    · obtain ⟨t, _, rfl⟩ := List.mem_map.1 hd
      exact ⟨rfl, rfl⟩

/-- A library of two modules, with a public class in the second one and these exported types. -/
def facade (number : Nat) (before behind : List TypeRef) : Loaded :=
  let name : AssemblyName := ⟨"Lib", .zero, none⟩
  ⟨⟨0, number⟩, AssemblyDeclaration.build ⟨name, [AssemblyDeclaration.mainModule name [] before,
    ⟨"More.dll", [TypeDeclaration.publicClass "Lib" "Kept"], behind⟩]⟩⟩

/-- A class that has moved to another assembly, where it is still there. -/
def movedRef : TypeRef :=
  .mk "Lib" "Moved" (.assembly ⟨"Core", .zero, none⟩) (.resolved ⟨⟨0, 9⟩, [0]⟩
    (.mk "Lib" "Moved" (.assembly ⟨"Core", .zero, none⟩) .definition))

/-- A class that is said to be in an assembly that is missing. -/
def lostRef (name : String) : TypeRef :=
  AssemblyDeclaration.forwarder "Lib" name ⟨"Missing", .zero, none⟩

/-- The class that has moved. -/
def movedDefinitions (id : DefinitionId) : Option TypeDefinition :=
  if id = ⟨⟨0, 9⟩, [0]⟩ then
    some ((TypeDeclaration.publicClass "Lib" "Moved").build (.assembly ⟨"Core", .zero, none⟩))
  else none

/-- Three exported types are lost, before and behind one that leads somewhere. -/
theorem SurfaceTree.ofBuilds_losing_facade :
    let s : Selection := { Selection.visible with hash := fun f => .ofNat f.length }
    let left := facade 0 [lostRef "A", movedRef] [lostRef "B"]
    let right := facade 1 [] [movedRef, lostRef "B"]
    let whole := ofBuilds s movedDefinitions left right
    let rest := ofBuilds s movedDefinitions (facade 0 [movedRef] []) (facade 1 [] [movedRef])
    whole.types.map TypeNode.path = [[("Lib", "Moved")], [("Lib", "Kept")]] ∧
      rest.nodes = whole.nodes ∧
      whole.diagnostics.Perm (rest.diagnostics ++ [⟨.exportUnresolved "Lib.A", some "Lib"⟩,
        ⟨.exportUnresolved "Lib.B", some "Lib"⟩, ⟨.exportUnresolved "Lib.B", some "Lib"⟩]) := by
  intro s left right whole rest
  have hlost (name : String) : Selection.forwarded? movedDefinitions (lostRef name) = none := rfl
  have hleft : left.Loses movedDefinitions [lostRef "A", lostRef "B"] (facade 0 [movedRef] []) :=
    ⟨rfl, rfl, .cons (.lose (hlost "A") (.keep movedRef .nil))
      (.cons (.lose (hlost "B") .nil) .nil)⟩
  have hright : right.Loses movedDefinitions [lostRef "B"] (facade 1 [] [movedRef]) :=
    ⟨rfl, rfl, .cons .nil (.cons (.keep movedRef (.lose (hlost "B") .nil)) .nil)⟩
  obtain ⟨hnodes, -, -, -, hdiagnostics, -⟩ :=
    SurfaceTree.ofBuilds_losing s movedDefinitions hleft hright
  exact ⟨by decide +kernel, hnodes, hdiagnostics⟩

end ApiEvolution
