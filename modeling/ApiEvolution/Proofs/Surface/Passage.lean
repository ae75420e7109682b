import Mathlib.Data.List.Forall2
import ApiEvolution.Proofs.Surface.Mapping

/-!
# Replacing references one after the other

A traversal replaces the references of a surface in reading order, and what one reference is
replaced by depends on the state at that moment; so two occurrences of one reference may be
replaced differently. `Replaced` says that two surfaces differ in their references only, which
stand in a relation pairwise. A `Passage` is such a relation that goes on to hold in later states,
and `passes_types` carries it from one reference to all references of a list of types.
-/

namespace ApiEvolution

/-! ## Surfaces with references -/

/-- Something that has references, and how they are replaced. -/
class Carrier (α : Type) where
  refs : α → List TypeRef
  replace : (TypeRef → TypeRef) → α → α

namespace Carrier

variable {α β : Type} [Carrier α] [Carrier β]

instance : Carrier Unit := ⟨fun _ => [], fun _ _ => ()⟩
instance : Carrier TypeRef := ⟨fun t => [t], fun f t => f t⟩
instance : Carrier (α × β) :=
  ⟨fun p => refs p.1 ++ refs p.2, fun f => Prod.map (replace f) (replace f)⟩
instance : Carrier (List α) := ⟨List.flatMap refs, fun f => List.map (replace f)⟩
instance : Carrier (Option α) := ⟨fun o => o.toList.flatMap refs, fun f => Option.map (replace f)⟩
instance : Carrier Signature := ⟨Signature.refs, Signature.map⟩
instance : Carrier GenericParameter := ⟨GenericParameter.refs, GenericParameter.map⟩
instance : Carrier Method := ⟨Method.refs, Method.map⟩
instance : Carrier MemberKind := ⟨MemberKind.refs, MemberKind.map⟩
instance : Carrier Member := ⟨Member.refs, Member.rebind⟩
instance : Carrier TypeDefinition := ⟨TypeDefinition.refs, TypeDefinition.rebind⟩
instance : Carrier Module := ⟨fun m => refs (m.types, m.exported), Module.rebind⟩
instance : Carrier Assembly := ⟨fun a => refs a.modules, Assembly.rebind⟩

end Carrier

open Carrier

theorem Module.refs_eq (m : Module) : refs m = TypeDefinition.refsOf m.types ++ m.exported := by
  rw [TypeDefinition.refsOf_eq]
  exact congrArg (m.types.flatMap TypeDefinition.refs ++ ·) (List.flatMap_singleton' m.exported)

/-- The references of an assembly, in the order in which they are replaced. -/
theorem Assembly.mem_refs {a : Assembly} {r : TypeRef} : r ∈ refs a ↔ r ∈ a.references := by
  rw [mem_references]
  refine List.mem_flatMap.trans (exists_congr fun m => and_congr_right fun _ => ?_)
  rw [m.refs_eq]

/-- In lists that stand in a relation, everything in the second one stands for something in the
first. -/
theorem exists_of_forall₂ {α β : Type} {R : α → β → Prop} {xs : List α} {ys : List β}
    (h : List.Forall₂ R xs ys) {y : β} (hy : y ∈ ys) : ∃ x ∈ xs, R x y := by
  induction h with
  | nil => cases hy
  | @cons x y' _ _ hxy _ ih =>
    rcases List.mem_cons.1 hy with rfl | hy
    · exact ⟨x, List.mem_cons_self, hxy⟩
    · obtain ⟨x', hx', hrel⟩ := ih hy
      exact ⟨x', List.mem_cons_of_mem x hx', hrel⟩

theorem forall₂_trans {α : Type} {R : α → α → Prop} (hR : ∀ x y z, R x y → R y z → R x z) :
    ∀ {xs ys zs : List α}, List.Forall₂ R xs ys → List.Forall₂ R ys zs → List.Forall₂ R xs zs
  | _, _, _, .nil, .nil => .nil
  | _, _, _, .cons hxy hxys, .cons hyz hyzs => .cons (hR _ _ _ hxy hyz) (forall₂_trans hR hxys hyzs)

theorem eq_map_of_forall₂ {α β : Type} {f : α → β} {xs : List α} {ys : List β}
    (h : List.Forall₂ (fun x y => f x = y) xs ys) : xs.map f = ys := by
  have heq : List.Forall₂ Eq (xs.map f) ys := List.forall₂_map_left_iff.2 h
  rwa [List.forall₂_eq_eq_eq] at heq

/-- The surface `a` is `o` with each reference replaced by one that stands in the relation `R` to
it. -/
structure Replaced {α : Type} [Carrier α] (R : TypeRef → TypeRef → Prop) (o a : α) : Prop where
  related : List.Forall₂ R (refs o) (refs a)
  rest : ∀ g h : TypeRef → TypeRef, (refs o).map g = (refs a).map h → replace g o = replace h a

namespace Replaced

variable {α β : Type} [Carrier α] [Carrier β] {R S : TypeRef → TypeRef → Prop}

theorem imp {o a : α} (h : Replaced R o a) (hRS : ∀ r r', R r r' → S r r') : Replaced S o a :=
  ⟨h.related.imp fun {_ _} hr => hRS _ _ hr, h.rest⟩

theorem unit : Replaced R () () :=
  ⟨.nil, fun _ _ _ => rfl⟩

theorem single {r r' : TypeRef} (h : R r r') : Replaced R r r' :=
  ⟨.cons h .nil, fun _ _ hgh => List.singleton_inj.1 hgh⟩

theorem pair {o a : α} {p b : β} (h : Replaced R o a) (h' : Replaced R p b) :
    Replaced R (o, p) (a, b) := by
  refine ⟨List.rel_append h.related h'.related, fun g k hgk => ?_⟩
  have hsplit : (refs o).map g ++ (refs p).map g = (refs a).map k ++ (refs b).map k := by
    rw [← List.map_append, ← List.map_append]
    exact hgk
  have hlength : ((refs o).map g).length = ((refs a).map k).length := by
    rw [List.length_map, List.length_map, h.related.length_eq]
  obtain ⟨hleft, hright⟩ := List.append_inj hsplit hlength
  exact Prod.ext (h.rest g k hleft) (h'.rest g k hright)

/-- What is made of a surface, without references of its own, is replaced with it. -/
theorem of {F : α → β} (hrefs : ∀ x, refs (F x) = refs x)
    (hreplace : ∀ f x, replace f (F x) = F (replace f x)) {o a : α} (h : Replaced R o a) :
    Replaced R (F o) (F a) := by
  refine ⟨?_, fun g k hgk => ?_⟩
  · rw [hrefs, hrefs]
    exact h.related
  · rw [hrefs, hrefs] at hgk
    rw [hreplace, hreplace, h.rest g k hgk]

theorem nil : Replaced R ([] : List α) [] :=
  ⟨.nil, fun _ _ _ => rfl⟩

theorem cons {o a : α} {os as : List α} (h : Replaced R o a) (h' : Replaced R os as) :
    Replaced R (o :: os) (a :: as) :=
  of (F := fun p : α × List α => p.1 :: p.2) (fun _ => rfl) (fun _ _ => rfl) (h.pair h')

/-- Replacing depends on what becomes of the references. -/
theorem congr {o a : α} (h : Replaced Eq o a) {f g : TypeRef → TypeRef}
    (hfg : ∀ r ∈ refs o, f r = g r) : replace f o = replace g o := by
  have hrefs : refs o = refs a := List.forall₂_eq_eq_eq ▸ h.related
  have hf : replace f o = replace g a := h.rest f g (by rw [← hrefs, List.map_congr_left hfg])
  exact hf.trans (h.rest g g (congrArg (List.map g) hrefs)).symm

theorem rel {r r' : TypeRef} (h : Replaced R r r') : R r r' :=
  (List.forall₂_cons.1 h.related).1

/-- Two ways to replace references agree if they do on references that are related. -/
theorem replace_eq {o a : α} (h : Replaced R o a) {g k : TypeRef → TypeRef}
    (hgk : ∀ r r', R r r' → g r = k r') : replace g o = replace k a := by
  refine h.rest g k ?_
  have hrelated := h.related
  generalize refs o = rs at hrelated
  generalize refs a = rs' at hrelated
  induction hrelated with
  | nil => rfl
  | cons hr _ ih => rw [List.map_cons, List.map_cons, hgk _ _ hr, ih]

/-- Types are rebound by what replaces each reference. -/
theorem rebindAll_eq {ts ts' : List TypeDefinition} (h : Replaced R ts ts') {f : TypeRef → TypeRef}
    (hf : ∀ r r', R r r' → f r = r') : TypeDefinition.rebindAll f ts = ts' := by
  have hsame : ts.map (TypeDefinition.rebind f) = ts'.map (TypeDefinition.rebind id) :=
    h.replace_eq hf
  rwa [← TypeDefinition.rebindAll_eq, ← TypeDefinition.rebindAll_eq,
    TypeDefinition.rebindAll_id] at hsame

/-- Whatever does not depend on the references is as before. -/
theorem unchanged {γ : Type} {F : α → γ} (hF : ∀ f x, F (replace f x) = F x) {o a : α}
    (h : Replaced R o a) : F a = F o := by
  -- with one reference everywhere, nothing is left of what was replaced
  let blank : TypeRef → TypeRef := fun _ => .topLevel ⟨"", ⟨0, 0, 0, 0⟩, none⟩ "" ""
  have hsame : replace blank o = replace blank a := h.replace_eq fun _ _ _ => rfl
  rw [← hF blank a, ← hsame, hF]

/-- Every reference stands for one that was there before. -/
theorem exists_of_mem {o a : α} (h : Replaced R o a) {r' : TypeRef} (hr : r' ∈ refs a) :
    ∃ r ∈ refs o, R r r' :=
  exists_of_forall₂ h.related hr

end Replaced

/-! ## Passages -/

/-- A relation between references and what they are replaced by, in states that may grow: what holds
in one state holds in all later ones. -/
structure Passage (γ : Type) where
  le : γ → γ → Prop
  rel : γ → TypeRef → TypeRef → Prop
  refl : ∀ g, le g g
  trans : ∀ {g g' g''}, le g g' → le g' g'' → le g g''
  mono : ∀ {g g' r r'}, le g g' → rel g r r' → rel g' r r'

namespace Passage

variable {σ γ α β δ : Type} (G : Passage γ) (I : γ → σ → Prop)

/-- The step leads from the state `s`, which `g` stands for, to a state that a later `g'` stands
for, and `Q` holds of `g'` and its value. -/
def EnsuresFrom (g : γ) (s : σ) (x : StateM σ α) (Q : γ → α → Prop) : Prop :=
  ∃ g', G.le g g' ∧ I g' (x.run s).2 ∧ Q g' (x.run s).1

def Ensures (x : StateM σ α) (Q : γ → α → Prop) : Prop :=
  ∀ g s, I g s → G.EnsuresFrom I g s x Q

/-- The value of the step is `F` of the surface `o` with its references replaced. -/
def Fills [Carrier α] (x : StateM σ β) (o : α) (F : α → β) : Prop :=
  G.Ensures I x fun g b => ∃ a, Replaced (G.rel g) o a ∧ b = F a

/-- The value of the step is the surface `o` with its references replaced. -/
abbrev Passes [Carrier α] (x : StateM σ α) (o : α) : Prop :=
  G.Fills I x o id

variable {G I} {g : γ} {s : σ}

theorem ensuresFrom_pure {a : α} {Q : γ → α → Prop} (hg : I g s) (ha : Q g a) :
    G.EnsuresFrom I g s (pure a) Q :=
  ⟨g, G.refl g, hg, ha⟩

theorem ensuresFrom_bind {x : StateM σ α} {k : α → StateM σ β} {P : γ → α → Prop}
    {Q : γ → β → Prop} (hx : G.EnsuresFrom I g s x P)
    (hk : ∀ g' s' a, G.le g g' → I g' s' → P g' a → G.EnsuresFrom I g' s' (k a) Q) :
    G.EnsuresFrom I g s (x >>= k) Q := by
  obtain ⟨g₁, hle₁, hg₁, ha⟩ := hx
  obtain ⟨g₂, hle₂, hg₂, hb⟩ := hk g₁ _ _ hle₁ hg₁ ha
  exact ⟨g₂, G.trans hle₁ hle₂, hg₂, hb⟩

theorem EnsuresFrom.imp {x : StateM σ α} {P Q : γ → α → Prop} (h : G.EnsuresFrom I g s x P)
    (hPQ : ∀ g' a, G.le g g' → P g' a → Q g' a) : G.EnsuresFrom I g s x Q := by
  obtain ⟨g', hle, hg', ha⟩ := h
  exact ⟨g', hle, hg', hPQ g' _ hle ha⟩

/-- Steps that have no part in each other's values. -/
theorem ensures_mapM {ι : Type} {xs : List ι} {f : ι → StateM σ α} {v : ι → α} {P : γ → ι → Prop}
    (hmono : ∀ {g g' i}, G.le g g' → P g i → P g' i)
    (h : ∀ i ∈ xs, G.Ensures I (f i) fun g a => a = v i ∧ P g i) :
    G.Ensures I (xs.mapM f) fun g as => as = xs.map v ∧ ∀ i ∈ xs, P g i := by
  intro g s hg
  induction xs generalizing g s with
  | nil => exact ensuresFrom_pure hg ⟨rfl, fun _ hi => by cases hi⟩
  | cons x xs ih =>
    rw [List.mapM_cons]
    refine ensuresFrom_bind (h x List.mem_cons_self g s hg) fun g₁ s₁ a hle₁ hg₁ ha => ?_
    have hxs := ih (fun i hi => h i (List.mem_cons_of_mem x hi)) g₁ s₁ hg₁
    refine ensuresFrom_bind hxs fun g₂ s₂ as hle₂ hg₂ has => ?_
    refine ensuresFrom_pure hg₂ ⟨?_, fun i hi => ?_⟩
    · rw [ha.1, has.1, List.map_cons]
    · rcases List.mem_cons.1 hi with rfl | hi
      · exact hmono hle₂ ha.2
      · exact has.2 i hi

/-- What each of the steps keeps, all of them keep. -/
theorem ensures_all {ι : Type} {xs : List ι} {f : ι → StateM σ α}
    (h : ∀ i ∈ xs, G.Ensures I (f i) fun _ _ => True) :
    G.Ensures I (xs.mapM f) fun _ _ => True := by
  intro g s hg
  induction xs generalizing g s with
  | nil => exact ensuresFrom_pure hg trivial
  | cons x xs ih =>
    rw [List.mapM_cons]
    refine ensuresFrom_bind (h x List.mem_cons_self g s hg) fun g₁ s₁ _ _ hg₁ _ => ?_
    have hxs := ih (fun i hi => h i (List.mem_cons_of_mem x hi)) g₁ s₁ hg₁
    exact ensuresFrom_bind hxs fun _ _ _ _ hg₂ _ => ensuresFrom_pure hg₂ trivial

variable [Carrier α] [Carrier β]

theorem fills_pure (b : δ) : G.Fills I (pure b) () fun _ => b :=
  fun _ _ hg => ensuresFrom_pure hg ⟨(), .unit, rfl⟩

theorem fills_bind {x : StateM σ α} {k : α → StateM σ δ} {o : α} {p : β} {F : α × β → δ}
    (hx : G.Passes I x o) (hk : ∀ a, G.Fills I (k a) p fun b => F (a, b)) :
    G.Fills I (x >>= k) (o, p) F := by
  intro g s hg
  refine ensuresFrom_bind (hx g s hg) fun g' s' a' _ hg' ⟨a, ha, hvalue⟩ => ?_
  obtain rfl : a' = a := hvalue
  refine (hk a' g' s' hg').imp fun g'' c hle ⟨b, hb, hresult⟩ => ?_
  -- what the first step has replaced is still related when the second one is done
  exact ⟨(a', b), (ha.imp fun _ _ => G.mono hle).pair hb, hresult⟩

theorem fills_map {x : StateM σ α} {o : α} (hx : G.Passes I x o) (F : α → δ) :
    G.Fills I (do return F (← x)) o F := by
  intro g s hg
  obtain ⟨g', hle, hg', a, ha, hvalue⟩ := hx g s hg
  exact ⟨g', hle, hg', a, ha, congrArg F hvalue⟩

/-- What is made of surfaces, without references of its own, is passed if they are. -/
theorem passes_of {x : StateM σ β} (o : α) (F : α → β) (hx : G.Fills I x o F)
    (hrefs : ∀ a, refs (F a) = refs a) (hreplace : ∀ f a, replace f (F a) = F (replace f a)) :
    G.Passes I x (F o) := by
  intro g s hg
  obtain ⟨g', hle, hg', a, ha, hvalue⟩ := hx g s hg
  exact ⟨g', hle, hg', F a, ha.of hrefs hreplace, hvalue⟩

/-- Nothing is replaced where there are no references. -/
theorem passes_pure (a : α) (hrefs : refs a = []) (hreplace : ∀ f, replace f a = a) :
    G.Passes I (pure a) a :=
  passes_of () (fun _ => a) (fills_pure a) (fun _ => hrefs) fun f _ => hreplace f

theorem passes_mapM {ι : Type} {xs : List ι} {f : ι → StateM σ α} {o : ι → α}
    (h : ∀ x ∈ xs, G.Passes I (f x) (o x)) : G.Passes I (xs.mapM f) (xs.map o) := by
  induction xs with
  | nil => exact passes_pure [] rfl fun _ => rfl
  | cons x xs ih =>
    rw [List.mapM_cons]
    refine passes_of (o x, xs.map o) (fun p => p.1 :: p.2)
      (fills_bind (h x List.mem_cons_self) fun a => ?_) (fun _ => rfl) fun _ _ => rfl
    exact fills_map (ih fun y hy => h y (List.mem_cons_of_mem x hy)) (a :: ·)

/-! ## Traversals of a surface -/

variable {f : TypeRef → StateM σ TypeRef}

mutual

theorem passes_signature : (s : Signature) → (∀ r ∈ s.refs, G.Passes I (f r) r) →
    G.Passes I (s.traverse f) s
  | .named t, h =>
    passes_of t Signature.named (fills_map (h t (List.mem_singleton_self t)) _) (fun _ => rfl)
      fun _ _ => rfl
  | .generic t ss, h => by
    refine passes_of (t, ss) (fun p => Signature.generic p.1 p.2)
      (fills_bind (h t List.mem_cons_self) fun t' => ?_) (fun p => ?_) fun g p => ?_
    · exact fills_map (passes_signatures ss fun r hr => h r (List.mem_cons_of_mem t hr)) _
    · exact congrArg (p.1 :: ·) (Signature.refsOf_eq p.2)
    · exact congrArg (Signature.generic (g p.1)) (Signature.mapAll_eq g p.2)
  | .typeParameter _, _ => passes_pure _ rfl fun _ => rfl
  | .methodParameter _, _ => passes_pure _ rfl fun _ => rfl
  | .array s, h =>
    passes_of s Signature.array (fills_map (passes_signature s h) _) (fun _ => rfl) fun _ _ => rfl
  | .byReference s, h =>
    passes_of s Signature.byReference (fills_map (passes_signature s h) _) (fun _ => rfl)
      fun _ _ => rfl
  | .pointer s, h =>
    passes_of s Signature.pointer (fills_map (passes_signature s h) _) (fun _ => rfl) fun _ _ => rfl

theorem passes_signatures : (ss : List Signature) →
    (∀ r ∈ Signature.refsOf ss, G.Passes I (f r) r) → G.Passes I (Signature.traverseAll f ss) ss
  | [], _ => passes_pure [] rfl fun _ => rfl
  | s :: ss, h => by
    refine passes_of (s, ss) (fun p => p.1 :: p.2)
      (fills_bind (passes_signature s fun r hr => h r (List.mem_append_left _ hr)) fun s' => ?_)
      (fun _ => rfl) fun _ _ => rfl
    exact fills_map (passes_signatures ss fun r hr => h r (List.mem_append_right _ hr)) (s' :: ·)

end

theorem passes_optionalSignature (s : Option Signature)
    (h : ∀ r ∈ Signature.refsOf s.toList, G.Passes I (f r) r) :
    G.Passes I (s.mapM (·.traverse f)) s := by
  cases s with
  | none => exact passes_pure none rfl fun _ => rfl
  | some s =>
    simp only [Option.toList_some, Signature.refsOf, List.append_nil] at h
    rw [Option.mapM_some, ← bind_pure_comp]
    exact passes_of s some (fills_map (passes_signature s h) some) (fun t => List.append_nil _)
      fun _ _ => rfl

theorem passes_generic (p : GenericParameter) (h : ∀ r ∈ p.refs, G.Passes I (f r) r) :
    G.Passes I (p.traverse f) p :=
  passes_of p.constraints (fun ss => ({ p with constraints := ss } : GenericParameter))
    (fills_map (passes_signatures p.constraints h) _) (fun ss => Signature.refsOf_eq ss)
    fun g ss => congrArg (GenericParameter.mk p.name p.index p.flags) (Signature.mapAll_eq g ss)

theorem passes_generics (ps : List GenericParameter)
    (h : ∀ r ∈ GenericParameter.refsOf ps, G.Passes I (f r) r) :
    G.Passes I (ps.mapM (·.traverse f)) ps := by
  have hps := passes_mapM (o := id) fun p hp =>
    passes_generic p fun r hr => h r (List.mem_flatMap.2 ⟨p, hp, hr⟩)
  rwa [List.map_id] at hps

theorem passes_method (m : Method) (h : ∀ r ∈ m.refs, G.Passes I (f r) r) :
    G.Passes I (m.traverse f) m := by
  have hgenerics : ∀ r ∈ GenericParameter.refsOf m.genericParameters, G.Passes I (f r) r :=
    fun r hr => h r (List.mem_append_left _ (List.mem_append_left _ hr))
  have hparameters : ∀ r ∈ Signature.refsOf m.parameters, G.Passes I (f r) r :=
    fun r hr => h r (List.mem_append_left _ (List.mem_append_right _ hr))
  have hresult : ∀ r ∈ Signature.refsOf m.returnType.toList, G.Passes I (f r) r :=
    fun r hr => h r (List.mem_append_right _ hr)
  refine passes_of (m.genericParameters, m.parameters, m.returnType)
    (fun p => Method.mk m.attributes p.1 p.2.1 p.2.2)
    (fills_bind (passes_generics _ hgenerics) fun _ =>
      fills_bind (passes_signatures _ hparameters) fun _ =>
        fills_map (passes_optionalSignature _ hresult) _) (fun p => ?_) fun g p => ?_
  · refine (List.append_assoc (GenericParameter.refsOf p.1) _ _).trans ?_
    rw [Signature.refsOf_eq, Signature.refsOf_eq]
    rfl
  · exact congrArg (fun ss => Method.mk m.attributes (p.1.map (·.map g)) ss (p.2.2.map (·.map g)))
      (Signature.mapAll_eq g p.2.1)

theorem passes_kind (k : MemberKind) (h : ∀ r ∈ k.refs, G.Passes I (f r) r) :
    G.Passes I (k.traverse f) k := by
  have hoption (s : Option Signature) : Signature.refsOf s.toList = refs s :=
    Signature.refsOf_eq _
  cases k with
  | method m =>
    have hmethod := fills_map (passes_method m h) MemberKind.method
    exact passes_of m MemberKind.method hmethod (fun _ => rfl) fun _ _ => rfl
  | field t =>
    have hfield := fills_map (passes_optionalSignature t h) MemberKind.field
    exact passes_of t MemberKind.field hfield hoption fun _ _ => rfl
  | property t =>
    have hproperty := fills_map (passes_optionalSignature t h) MemberKind.property
    exact passes_of t MemberKind.property hproperty hoption fun _ _ => rfl
  | event t =>
    have hevent := fills_map (passes_optionalSignature t h) MemberKind.event
    exact passes_of t MemberKind.event hevent hoption fun _ _ => rfl

theorem passes_member (m : Member) (h : ∀ r ∈ m.refs, G.Passes I (f r) r) :
    G.Passes I (m.traverse f) m :=
  passes_of m.kind (fun k => ({ m with kind := k } : Member)) (fills_map (passes_kind m.kind h) _)
    (fun _ => rfl) fun _ _ => rfl

mutual

theorem passes_type : (t : TypeDefinition) → (∀ r ∈ t.refs, G.Passes I (f r) r) →
    G.Passes I (t.traverse f) t
  | ⟨d, flags, ps, ms, nested⟩, h => by
    have hgenerics : ∀ r ∈ GenericParameter.refsOf ps, G.Passes I (f r) r :=
      fun r hr => h r (List.mem_append_left _ (List.mem_append_left _ hr))
    have hmembers : ∀ m ∈ ms, G.Passes I (m.traverse f) (id m) := fun m hm =>
      passes_member m fun r hr =>
        h r (List.mem_append_left _ (List.mem_append_right _ (List.mem_flatMap.2 ⟨m, hm, hr⟩)))
    have hnested : ∀ r ∈ TypeDefinition.refsOf nested, G.Passes I (f r) r :=
      fun r hr => h r (List.mem_append_right _ hr)
    have hms := passes_mapM hmembers
    rw [List.map_id] at hms
    refine passes_of (ps, ms, nested) (fun p => TypeDefinition.mk d flags p.1 p.2.1 p.2.2)
      (fills_bind (passes_generics ps hgenerics) fun _ => fills_bind hms fun _ =>
        fills_map (passes_types nested hnested) _) (fun p => ?_) fun g p => ?_
    · refine (List.append_assoc (GenericParameter.refsOf p.1) _ _).trans ?_
      rw [TypeDefinition.refsOf_eq]
      rfl
    · exact congrArg (TypeDefinition.mk d flags (p.1.map (·.map g)) (p.2.1.map (·.rebind g)))
        (TypeDefinition.rebindAll_eq g p.2.2)

theorem passes_types : (ts : List TypeDefinition) →
    (∀ r ∈ TypeDefinition.refsOf ts, G.Passes I (f r) r) →
    G.Passes I (TypeDefinition.traverseAll f ts) ts
  | [], _ => passes_pure [] rfl fun _ => rfl
  | t :: ts, h => by
    refine passes_of (t, ts) (fun p => p.1 :: p.2)
      (fills_bind (passes_type t fun r hr => h r (List.mem_append_left _ hr)) fun t' => ?_)
      (fun _ => rfl) fun _ _ => rfl
    exact fills_map (passes_types ts fun r hr => h r (List.mem_append_right _ hr)) (t' :: ·)

end

/-! ## What replacing depends on -/

/-- A passage that leaves each reference as it is. -/
def still : Passage Unit where
  le _ _ := True
  rel _ := Eq
  refl _ := trivial
  trans _ _ := trivial
  mono _ := id

theorem passes_still (r : TypeRef) : still.Passes (fun _ (_ : Unit) => True) (pure r) r :=
  fun g _ _ => ⟨g, trivial, trivial, r, .single rfl, rfl⟩

/-- What can be passed depends on what becomes of its references. -/
theorem replace_congr {x : StateM Unit α} {o : α} (h : still.Passes (fun _ _ => True) x o)
    {f g : TypeRef → TypeRef} (hfg : ∀ r ∈ refs o, f r = g r) : replace f o = replace g o := by
  obtain ⟨_, -, -, a, ha, -⟩ := h () () trivial
  exact ha.congr hfg

end Passage

theorem TypeDefinition.rebindAll_congr {f g : TypeRef → TypeRef} {ts : List TypeDefinition}
    (h : ∀ r ∈ refsOf ts, f r = g r) : rebindAll f ts = rebindAll g ts := by
  rw [rebindAll_eq, rebindAll_eq]
  rw [refsOf_eq] at h
  exact Passage.replace_congr (Passage.passes_types ts fun r _ => Passage.passes_still r) h

theorem Assembly.rebind_congr {f g : TypeRef → TypeRef} {a : Assembly}
    (h : ∀ r ∈ a.references, f r = g r) : a.rebind f = a.rebind g := by
  have hmodules : a.modules.map (Module.rebind f) = a.modules.map (Module.rebind g) := by
    refine List.map_congr_left fun m hm => ?_
    have hrefs : ∀ r ∈ TypeDefinition.refsOf m.types ++ m.exported, f r = g r := fun r hr =>
      h r (mem_references.2 ⟨m, hm, hr⟩)
    have htypes : TypeDefinition.rebindAll f m.types = TypeDefinition.rebindAll g m.types :=
      TypeDefinition.rebindAll_congr fun r hr => hrefs r (List.mem_append_left _ hr)
    have hexported : m.exported.map f = m.exported.map g :=
      List.map_congr_left fun r hr => hrefs r (List.mem_append_right _ hr)
    rw [Module.rebind, htypes, hexported, Module.rebind]
  rw [rebind, hmodules, rebind]

end ApiEvolution
