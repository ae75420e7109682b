import ApiEvolution.Surface.Assembly

/-!
# Two traversals in step

Two machines with states of their own are coupled by what each state of the first one is for the
second one. Their steps are `InStep` if they lead from a state and its image to a state and its
image, with a value and its image. A surface and its image are traversed in step as soon as each
reference and its image are (`Coupling.inStep_types`).
-/

namespace ApiEvolution

/-- The states of one machine that are taken into account, and what they are for another one. -/
structure Coupling (σ τ : Type) where
  Holds : σ → Prop
  image : σ → τ

namespace Coupling

variable {σ τ α β γ δ : Type} (K : Coupling σ τ)

/-- The first step leads from a state to one that is taken into account, and the second one leads
from the image of the former to the image of the latter, with the image of the value. -/
def InStep (F : α → β) (x : StateM σ α) (y : StateM τ β) : Prop :=
  ∀ s, K.Holds s → K.Holds (x.run s).2 ∧ y.run (K.image s) = (F (x.run s).1, K.image (x.run s).2)

variable {K} {F : α → β} {G : γ → δ}

theorem inStep_pure (a : α) : K.InStep F (pure a) (pure (F a)) :=
  fun _ hs => ⟨hs, rfl⟩

theorem inStep_bind {x : StateM σ α} {y : StateM τ β} {k : α → StateM σ γ} {l : β → StateM τ δ}
    (hx : K.InStep F x y) (hk : ∀ a, K.InStep G (k a) (l (F a))) :
    K.InStep G (x >>= k) (y >>= l) := by
  intro s hs
  obtain ⟨hs', hrun⟩ := hx s hs
  rw [StateT.run_bind, StateT.run_bind, hrun]
  exact hk _ _ hs'

/-- What is made of the values is made in step. -/
theorem inStep_map {x : StateM σ α} {y : StateM τ β} {f : α → γ} {g : β → δ}
    (hx : K.InStep F x y) (h : ∀ a, g (F a) = G (f a)) :
    K.InStep G (do return f (← x)) (do return g (← y)) := by
  refine inStep_bind hx fun a => ?_
  rw [h a]
  exact inStep_pure (f a)

theorem inStep_modify {f : σ → σ} {g : τ → τ} (h : ∀ s, K.Holds s → K.Holds (f s))
    (himage : ∀ s, g (K.image s) = K.image (f s)) : K.InStep id (modify f) (modify g) :=
  fun s hs => ⟨h s hs, congrArg (Prod.mk PUnit.unit) (himage s)⟩

theorem inStep_modifyGet {f : σ → α × σ} {g : τ → β × τ} (h : ∀ s, K.Holds s → K.Holds (f s).2)
    (himage : ∀ s, g (K.image s) = (F (f s).1, K.image (f s).2)) :
    K.InStep F (modifyGet f) (modifyGet g) :=
  fun s hs => ⟨h s hs, himage s⟩

/-- What follows may depend on the state. -/
theorem inStep_get {k : σ → StateM σ γ} {l : τ → StateM τ δ}
    (h : ∀ s, K.Holds s → K.InStep G (k s) (l (K.image s))) :
    K.InStep G (get >>= k) (get >>= l) :=
  fun s hs => h s hs s hs

theorem inStep_mapM {ι κ : Type} {f : ι → StateM σ α} {g : κ → StateM τ β} {φ : ι → κ} {xs : List ι}
    (h : ∀ x ∈ xs, K.InStep F (f x) (g (φ x))) :
    K.InStep (List.map F) (xs.mapM f) ((xs.map φ).mapM g) := by
  induction xs with
  | nil => exact inStep_pure []
  | cons x xs ih =>
    rw [List.map_cons, List.mapM_cons, List.mapM_cons]
    refine inStep_bind (h x List.mem_cons_self) fun a => ?_
    exact inStep_map (ih fun y hy => h y (List.mem_cons_of_mem x hy)) fun _ => rfl

/-! ## Surfaces -/

variable {f : TypeRef → StateM σ TypeRef} {g : TypeRef → StateM τ TypeRef} {φ : TypeRef → TypeRef}

/-- Each reference and its image are gone through in step. -/
def Meets (K : Coupling σ τ) (φ : TypeRef → TypeRef) (f : TypeRef → StateM σ TypeRef)
    (g : TypeRef → StateM τ TypeRef) : Prop :=
  ∀ t, K.InStep φ (f t) (g (φ t))

mutual

theorem inStep_signature (h : K.Meets φ f g) : (s : Signature) →
    K.InStep (Signature.map φ) (s.traverse f) ((s.map φ).traverse g)
  | .named t => inStep_map (h t) fun _ => rfl
  | .generic t ss =>
    inStep_bind (h t) fun _ => inStep_map (inStep_signatures h ss) fun _ => rfl
  | .typeParameter _ => inStep_pure _
  | .methodParameter _ => inStep_pure _
  | .array s => inStep_map (inStep_signature h s) fun _ => rfl
  | .byReference s => inStep_map (inStep_signature h s) fun _ => rfl
  | .pointer s => inStep_map (inStep_signature h s) fun _ => rfl

theorem inStep_signatures (h : K.Meets φ f g) : (ss : List Signature) →
    K.InStep (Signature.mapAll φ) (Signature.traverseAll f ss)
      (Signature.traverseAll g (Signature.mapAll φ ss))
  | [] => inStep_pure _
  | s :: ss =>
    inStep_bind (inStep_signature h s) fun _ => inStep_map (inStep_signatures h ss) fun _ => rfl

end

theorem inStep_optionalSignature (h : K.Meets φ f g) (s : Option Signature) :
    K.InStep (Option.map (Signature.map φ)) (s.mapM (·.traverse f))
      ((s.map (Signature.map φ)).mapM (·.traverse g)) := by
  cases s with
  | none => exact inStep_pure none
  | some s =>
    rw [Option.map_some, Option.mapM_some, Option.mapM_some, ← bind_pure_comp, ← bind_pure_comp]
    exact inStep_map (inStep_signature h s) fun _ => rfl

theorem inStep_generics (h : K.Meets φ f g) (ps : List GenericParameter) :
    K.InStep (List.map (GenericParameter.map φ)) (ps.mapM (·.traverse f))
      ((ps.map (GenericParameter.map φ)).mapM (·.traverse g)) :=
  inStep_mapM fun p _ => inStep_map (inStep_signatures h p.constraints) fun _ => rfl

theorem inStep_method (h : K.Meets φ f g) (m : Method) :
    K.InStep (Method.map φ) (m.traverse f) ((m.map φ).traverse g) :=
  inStep_bind (inStep_generics h m.genericParameters) fun _ =>
    inStep_bind (inStep_signatures h m.parameters) fun _ =>
      inStep_map (inStep_optionalSignature h m.returnType) fun _ => rfl

theorem inStep_kind (h : K.Meets φ f g) (k : MemberKind) :
    K.InStep (MemberKind.map φ) (k.traverse f) ((k.map φ).traverse g) := by
  cases k with
  | method m => exact inStep_map (inStep_method h m) fun _ => rfl
  | field t => exact inStep_map (inStep_optionalSignature h t) fun _ => rfl
  | property t => exact inStep_map (inStep_optionalSignature h t) fun _ => rfl
  | event t => exact inStep_map (inStep_optionalSignature h t) fun _ => rfl

theorem inStep_member (h : K.Meets φ f g) (m : Member) :
    K.InStep (Member.map φ) (m.traverse f) ((m.map φ).traverse g) :=
  inStep_map (inStep_kind h m.kind) fun _ => rfl

mutual

theorem inStep_type (h : K.Meets φ f g) : (t : TypeDefinition) →
    K.InStep (TypeDefinition.map φ) (t.traverse f) ((t.map φ).traverse g)
  | ⟨_, _, ps, _, nested⟩ =>
    inStep_bind (inStep_generics h ps) fun _ =>
      inStep_bind (inStep_mapM fun m _ => inStep_member h m) fun _ =>
        inStep_map (inStep_types h nested) fun _ => rfl

theorem inStep_types (h : K.Meets φ f g) : (ts : List TypeDefinition) →
    K.InStep (TypeDefinition.mapAll φ) (TypeDefinition.traverseAll f ts)
      (TypeDefinition.traverseAll g (TypeDefinition.mapAll φ ts))
  | [] => inStep_pure _
  | t :: ts =>
    inStep_bind (inStep_type h t) fun _ => inStep_map (inStep_types h ts) fun _ => rfl

end

end Coupling

end ApiEvolution
