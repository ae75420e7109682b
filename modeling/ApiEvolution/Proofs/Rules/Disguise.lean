import ApiEvolution.Proofs.Identity.Disguise
import ApiEvolution.Rules.Judge

/-!
# Rules do not notice replaced references

Of a type, rules look at its flags, its name, its generic parameters and whether it can be derived
from; of a member, at its name and its generic parameters. If these are the same apart from
references that are replaced unnoticed, a rule says the same (`Disguise.onTypes`,
`Disguise.onMembers`).
-/

namespace ApiEvolution

theorem any_map_congr {α β : Type} {f : α → β} {p : β → Bool} {q : α → Bool} {xs : List α}
    (h : ∀ x ∈ xs, p (f x) = q x) : (xs.map f).any p = xs.any q := by
  induction xs with
  | nil => rfl
  | cons x xs ih =>
    rw [List.map_cons, List.any_cons, List.any_cons, h x List.mem_cons_self,
      ih fun y hy => h y (List.mem_cons_of_mem x hy)]

theorem Rules.mem_distinctFrom (c : Comparer) {chosen ss : List Signature} {s : Signature}
    (h : s ∈ distinctFrom c chosen ss) : s ∈ chosen ++ ss := by
  induction ss generalizing chosen with
  | nil => simpa [distinctFrom] using h
  | cons t ss ih =>
    rw [distinctFrom] at h
    split at h
    · have hmem := ih h
      simp only [List.mem_append, List.mem_cons] at hmem ⊢
      exact hmem.imp_right .inr
    · have hmem := ih h
      simpa using hmem

namespace Disguise

variable {c : Comparer} (D : Disguise c) (i j : Side)

/-! ## Constraints -/

/-- All references of the signature are of the kind that can be replaced. -/
def Suits (s : Signature) : Prop :=
  ∀ r ∈ s.refs, D.Fits r

/-- So are all references of the parameter. -/
def SuitsParameter (p : GenericParameter) : Prop :=
  ∀ s ∈ p.constraints, D.Suits s

def signature (s : Signature) : Signature :=
  s.map (D.map i)

variable {D} {p q : GenericParameter}

theorem suitsParameter_of_refsOf {ps : List GenericParameter}
    (h : ∀ r ∈ GenericParameter.refsOf ps, D.Fits r) : ∀ p ∈ ps, D.SuitsParameter p := by
  intro p hp s hs r hr
  refine h r (List.mem_flatMap.2 ⟨p, hp, ?_⟩)
  rw [GenericParameter.refs, Signature.refsOf_eq]
  exact List.mem_flatMap.2 ⟨s, hs, hr⟩

theorem distinctFrom {chosen ss : List Signature} (hchosen : ∀ s ∈ chosen, D.Suits s)
    (hss : ∀ s ∈ ss, D.Suits s) :
    Rules.distinctFrom c (chosen.map (D.signature i)) (ss.map (D.signature i)) =
      (Rules.distinctFrom c chosen ss).map (D.signature i) := by
  induction ss generalizing chosen with
  | nil => rfl
  | cons s ss ih =>
    have hs : D.Suits s := hss s List.mem_cons_self
    have hrest : ∀ t ∈ ss, D.Suits t := fun t ht => hss t (List.mem_cons_of_mem s ht)
    have hany : (chosen.map (D.signature i)).any (c.sameSignature · (D.signature i s)) =
        chosen.any (c.sameSignature · s) :=
      any_map_congr fun t ht => D.sameSignature i i t s (hchosen t ht) hs
    have hmore : ∀ t ∈ chosen ++ [s], D.Suits t := by
      intro t ht
      rcases List.mem_append.1 ht with ht | ht
      · exact hchosen t ht
      · rw [List.mem_singleton.1 ht]
        exact hs
    rw [List.map_cons, Rules.distinctFrom, Rules.distinctFrom, hany]
    split
    · exact ih hchosen hrest
    · have hstep := ih hmore hrest
      rwa [List.map_append, List.map_singleton] at hstep

theorem suits_constraintTypes (hp : D.SuitsParameter p) :
    ∀ s ∈ Rules.constraintTypes c p, D.Suits s := by
  intro s hs
  have hmem := Rules.mem_distinctFrom c hs
  rw [List.nil_append] at hmem
  exact hp s (List.mem_of_mem_filter hmem)

theorem constraintTypes (hp : D.SuitsParameter p) :
    Rules.constraintTypes c (p.map (D.map i)) =
      (Rules.constraintTypes c p).map (D.signature i) := by
  have hresolved : Signature.isResolved ∘ D.signature i = Signature.isResolved :=
    funext (Signature.isResolved_map (D.isSome_definition? i))
  have hmap : (p.map (D.map i)).constraints = p.constraints.map (D.signature i) :=
    Signature.mapAll_eq _ _
  rw [Rules.constraintTypes, hmap, List.filter_map, hresolved]
  exact distinctFrom i (List.forall_mem_nil _) fun s hs => hp s (List.mem_of_mem_filter hs)

theorem minus {ss ts : List Signature} (hss : ∀ s ∈ ss, D.Suits s) (hts : ∀ t ∈ ts, D.Suits t) :
    Rules.minus c (ss.map (D.signature i)) (ts.map (D.signature j)) =
      (Rules.minus c ss ts).map (D.signature i) := by
  rw [Rules.minus, Rules.minus, List.filter_map]
  congr 1
  refine List.filter_congr fun s hs => ?_
  exact congrArg _ (any_map_congr fun t ht => D.sameSignature i j s t (hss s hs) (hts t ht))

theorem constraintsMinus (hp : D.SuitsParameter p) (hq : D.SuitsParameter q) :
    Rules.constraintsMinus c (p.map (D.map i)) (q.map (D.map j)) =
      Rules.constraintsMinus c p q := by
  have hnames : Signature.fullName ∘ D.signature i = Signature.fullName :=
    funext (Signature.fullName_map (D.fullName i))
  rw [Rules.constraintsMinus, constraintTypes i hp, constraintTypes j hq,
    minus i j (suits_constraintTypes hp) (suits_constraintTypes hq), List.map_map, hnames]
  rfl

theorem compareParameter (owner : Rules.ParameterOwner) (hp : D.SuitsParameter p)
    (hq : D.SuitsParameter q) :
    Rules.compareParameter c owner (p.map (D.map i)) (q.map (D.map j)) =
      Rules.compareParameter c owner p q := by
  rw [Rules.compareParameter, constraintsMinus j i hq hp, constraintsMinus i j hp hq]
  rfl

theorem compareParameters (owner : Rules.ParameterOwner) {ps qs : List GenericParameter}
    (hps : ∀ p ∈ ps, D.SuitsParameter p) (hqs : ∀ q ∈ qs, D.SuitsParameter q) :
    Rules.compareParameters c owner (ps.map (·.map (D.map i))) (qs.map (·.map (D.map j))) =
      Rules.compareParameters c owner ps qs := by
  have hpairs : (ps.zip qs).flatMap (fun x =>
      Rules.compareParameter c owner (x.1.map (D.map i)) (x.2.map (D.map j))) =
        (ps.zip qs).flatMap fun x => Rules.compareParameter c owner x.1 x.2 :=
    List.flatMap_congr fun x hx =>
      compareParameter i j owner (hps _ (List.of_mem_zip hx).1) (hqs _ (List.of_mem_zip hx).2)
  rw [Rules.compareParameters, Rules.compareParameters, List.length_map, List.length_map,
    List.zip_map, List.flatMap_map]
  exact congrArg (fun ds => if ps.length = qs.length then (ds, _) else _) hpairs

end Disguise

/-! ## Types and members -/

/-- Whether types can be derived from it depends on the flags of a type and on the constructors
among its members. -/
theorem TypeDefinition.isEffectivelySealed_congr {t u : TypeDefinition} {F : Member → Member}
    (hflags : u.flags = t.flags) (hmembers : u.members = t.members.map F)
    (hF : ∀ m, (F m).isInstanceConstructor = m.isInstanceConstructor ∧ (F m).access = m.access) :
    u.isEffectivelySealed = t.isEffectivelySealed := by
  have hconstructor : ((fun m : Member => m.isInstanceConstructor && m.isVisible) ∘ F) =
      fun m => m.isInstanceConstructor && m.isVisible := by
    funext m
    rw [Function.comp_apply, (hF m).1, Member.isVisible, (hF m).2, ← Member.isVisible]
  rw [isEffectivelySealed, hasVisibleConstructor, hmembers, List.any_map, hconstructor, isSealed,
    hflags]
  rfl

/-- To a rule the type `t'` looks like `t` with its references replaced. -/
structure TypeDefinition.LooksLike (f : TypeRef → TypeRef) (t t' : TypeDefinition) : Prop where
  flags : t'.flags = t.flags
  fullName : t'.fullName = t.fullName
  genericParameters : t'.genericParameters = t.genericParameters.map (·.map f)
  isEffectivelySealed : t'.isEffectivelySealed = t.isEffectivelySealed

/-- To a rule the member `m'` looks like `m` with its references replaced. -/
structure Member.LooksLike (f : TypeRef → TypeRef) (m m' : Member) : Prop where
  fullName : m'.fullName = m.fullName
  isVirtual : m'.isVirtual = m.isVirtual
  genericParameters : m'.method?.map (·.genericParameters) =
    m.method?.map fun k => k.genericParameters.map (·.map f)

/-- The generic parameters of a method refer to nothing that the method does not. -/
theorem Member.suits_genericParameters {c : Comparer} {D : Disguise c} {m : Member}
    (hm : ∀ r ∈ m.refs, D.Fits r) {k : Method} (hk : m.method? = some k) :
    ∀ p ∈ k.genericParameters, D.SuitsParameter p := by
  obtain ⟨name, declaringType, access, kind⟩ := m
  cases kind with
  | method k' =>
    cases hk
    exact Disguise.suitsParameter_of_refsOf fun r hr =>
      hm r (List.mem_append_left _ (List.mem_append_left _ hr))
  | _ => cases hk

/-- The generic parameters of methods are compared, and of nothing else. -/
theorem Rules.methodParameters_eq (c : Comparer) (m n : Member) :
    methodParameters c m n =
      match m.method?.map (·.genericParameters), n.method?.map (·.genericParameters) with
      | some ps, some qs => compareParameters c ⟨m.fullName, !m.isVirtual⟩ ps qs
      | _, _ => ([], []) := by
  rw [methodParameters]
  cases m.method? <;> cases n.method? <;> rfl

namespace Disguise

variable {c : Comparer} {D : Disguise c} (i j : Side)

theorem onTypes {l r l' r' : TypeDefinition} (hl : l.LooksLike (D.map i) l')
    (hr : r.LooksLike (D.map j) r') (hlp : ∀ p ∈ l.genericParameters, D.SuitsParameter p)
    (hrp : ∀ p ∈ r.genericParameters, D.SuitsParameter p) (rule : Rule) :
    rule.onTypes c l' r' = rule.onTypes c l r := by
  cases rule with
  | sealing =>
    simp only [Rule.onTypes, Rules.sealing, TypeDefinition.isInterface, TypeDefinition.isSealed,
      hl.flags, hr.flags, hl.isEffectivelySealed, hr.isEffectivelySealed, hr.fullName]
    rfl
  | genericConstraints =>
    simp only [Rule.onTypes, Rules.typeParameters, TypeDefinition.isSealed, hl.flags, hl.fullName,
      hl.genericParameters, hr.genericParameters, compareParameters i j _ hlp hrp]

theorem onMembers {m n m' n' : Member} (hm : m.LooksLike (D.map i) m')
    (hn : n.LooksLike (D.map j) n')
    (hmp : ∀ k, m.method? = some k → ∀ p ∈ k.genericParameters, D.SuitsParameter p)
    (hnp : ∀ k, n.method? = some k → ∀ p ∈ k.genericParameters, D.SuitsParameter p) (rule : Rule) :
    rule.onMembers c m' n' = rule.onMembers c m n := by
  cases rule with
  | sealing => rfl
  | genericConstraints =>
    rw [Rule.onMembers, Rule.onMembers, Rules.methodParameters_eq, Rules.methodParameters_eq,
      hm.genericParameters, hn.genericParameters, hm.fullName, hm.isVirtual]
    cases hmk : m.method? with
    | none => rfl
    | some k =>
      cases hnk : n.method? with
      | none => rfl
      | some k' =>
        simp only [Option.map_some, compareParameters i j _ (hmp k hmk) (hnp k' hnk)]

end Disguise

end ApiEvolution
