import Mathlib.Data.List.Forall2
import ApiEvolution.Proofs.Rules.Reflexivity

/-!
# What the rule for generic parameters reports

As long as to be the same is an equivalence on the constraint types at one place, the rule reports
of each class of them that is on one side only exactly one member (`Rules.OneOfEach`), and together
with the special constraints and the variance that is all (`Rules.Reported`). The main statement is
`Rules.paired_exact`, for the parameters of types and of methods alike: constraint types without a
definition have no part in it, and their order decides on nothing but the order of the report.
-/

namespace ApiEvolution

/-- Among these signatures, to be the same is an equivalence; every signature is the same as itself.
-/
structure Comparer.EquivalenceOn (c : Comparer) (ss : List Signature) : Prop where
  symm : ∀ s ∈ ss, ∀ t ∈ ss, c.sameSignature s t → c.sameSignature t s
  trans : ∀ s ∈ ss, ∀ t ∈ ss, ∀ u ∈ ss, c.sameSignature s t → c.sameSignature t u →
    c.sameSignature s u

/-- Among these signatures, those that are the same are written the same. -/
def Comparer.SpeltAlikeOn (c : Comparer) (ss : List Signature) : Prop :=
  ∀ s ∈ ss, ∀ t ∈ ss, c.sameSignature s t → s.fullName = t.fullName

theorem Comparer.EquivalenceOn.mono {c : Comparer} {ss ts : List Signature}
    (h : c.EquivalenceOn ts) (hsub : ss ⊆ ts) : c.EquivalenceOn ss :=
  ⟨fun s hs t ht => h.symm s (hsub hs) t (hsub ht),
    fun s hs t ht u hu => h.trans s (hsub hs) t (hsub ht) u (hsub hu)⟩

theorem Comparer.EquivalenceOn.swap {c : Comparer} {ss ts : List Signature}
    (h : c.EquivalenceOn (ss ++ ts)) : c.EquivalenceOn (ts ++ ss) :=
  h.mono (List.append_subset.2 ⟨List.subset_append_right ss ts, List.subset_append_left ss ts⟩)

namespace GenericParameter

/-- The constraint types that have a definition. -/
def resolved (p : GenericParameter) : List Signature :=
  p.constraints.filter Signature.isResolved

/-- The parameter without the constraint types that have no definition. -/
def resolvedOnly (p : GenericParameter) : GenericParameter :=
  { p with constraints := p.resolved }

/-- The special constraints as they are written. -/
def specials (p : GenericParameter) : List String :=
  (if p.requiresReferenceType then ["class"] else []) ++
    (if p.requiresValueType then ["struct"] else []) ++
      if p.requiresConstructor then ["new()"] else []

/-- The constraint types may stand in another order. -/
def Permuted (p q : GenericParameter) : Prop :=
  ∃ constraints : List Signature, constraints.Perm p.constraints ∧ q = { p with constraints }

theorem Permuted.resolved {p q : GenericParameter} (h : p.Permuted q) :
    q.resolved.Perm p.resolved := by
  obtain ⟨constraints, hperm, rfl⟩ := h
  exact hperm.filter _

theorem resolved_resolvedOnly (p : GenericParameter) : p.resolvedOnly.resolved = p.resolved := by
  simp only [resolved, resolvedOnly, List.filter_filter, Bool.and_self]

end GenericParameter

namespace Rules

variable (c : Comparer)

/-! ## One of each class -/

/-- The list has one of each class of `ss` that is not among `ts`, in their order. -/
structure OneOfEach (ss ts reported : List Signature) : Prop where
  sublist : reported.Sublist ss
  absent : ∀ s ∈ reported, ∀ t ∈ ts, ¬ c.sameSignature s t
  once : ∀ s ∈ ss, (∀ t ∈ ts, ¬ c.sameSignature s t) → reported.countP (c.sameSignature · s) = 1

/-- The list has one of each class of `ss`, in their order. -/
structure Transversal (ss chosen : List Signature) : Prop where
  sublist : chosen.Sublist ss
  apart : chosen.Pairwise fun s t => ¬ c.sameSignature s t
  covers : ∀ s ∈ ss, ∃ t ∈ chosen, c.sameSignature t s

/-- What is chosen behind `chosen` is new, and everything is covered. -/
theorem distinctFrom_spec (chosen ss : List Signature) : ∃ new : List Signature,
    distinctFrom c chosen ss = chosen ++ new ∧ new.Sublist ss ∧
      new.Pairwise (fun s t => ¬ c.sameSignature s t) ∧
      (∀ s ∈ chosen, ∀ t ∈ new, ¬ c.sameSignature s t) ∧
      ∀ s ∈ ss, ∃ t ∈ chosen ++ new, c.sameSignature t s := by
  induction ss generalizing chosen with
  | nil => exact ⟨[], (List.append_nil chosen).symm, .slnil, .nil, nofun, nofun⟩
  | cons s ss ih =>
    rw [distinctFrom]
    split
    · next hany =>
      obtain ⟨new, heq, hsub, hapart, hnew, hcovers⟩ := ih chosen
      obtain ⟨t, ht, hsame⟩ := List.any_eq_true.1 hany
      refine ⟨new, heq, hsub.cons s, hapart, hnew, List.forall_mem_cons.2 ⟨?_, hcovers⟩⟩
      exact ⟨t, List.mem_append_left _ ht, hsame⟩
    · next hnone =>
      obtain ⟨new, heq, hsub, hapart, hnew, hcovers⟩ := ih (chosen ++ [s])
      have hs : ∀ t ∈ new, ¬ c.sameSignature s t :=
        hnew s (List.mem_append_right _ (List.mem_singleton_self s))
      have hchosen : ∀ t ∈ chosen, ¬ c.sameSignature t s := by
        simpa only [Bool.not_eq_true, List.any_eq_false] using hnone
      rw [List.append_assoc, List.singleton_append] at heq hcovers
      refine ⟨s :: new, heq, hsub.cons_cons s, .cons hs hapart, fun t ht => ?_, ?_⟩
      · exact List.forall_mem_cons.2 ⟨hchosen t ht, hnew t (List.mem_append_left _ ht)⟩
      · refine List.forall_mem_cons.2 ⟨⟨s, ?_, c.sameSignature_self s⟩, hcovers⟩
        exact List.mem_append_right _ List.mem_cons_self

theorem transversal_constraintTypes (p : GenericParameter) :
    Transversal c p.resolved (constraintTypes c p) := by
  obtain ⟨new, heq, hsub, hapart, -, hcovers⟩ := distinctFrom_spec c [] p.resolved
  rw [List.nil_append] at heq hcovers
  have hnew : constraintTypes c p = new := heq
  rw [hnew]
  exact ⟨hsub, hapart, hcovers⟩

/-- Of elements that exclude each other one is counted at most. -/
theorem countP_eq_one {α : Type} {p : α → Bool} {xs : List α}
    (hapart : xs.Pairwise fun x y => ¬ (p x ∧ p y)) (hsome : ∃ x ∈ xs, p x) : xs.countP p = 1 := by
  induction xs with
  | nil => obtain ⟨x, hx, -⟩ := hsome; cases hx
  | cons y ys ih =>
    obtain ⟨hy, hys⟩ := List.pairwise_cons.1 hapart
    by_cases hpy : p y
    · have hnone : ys.countP p = 0 := List.countP_eq_zero.2 fun x hx hpx => hy x hx ⟨hpy, hpx⟩
      rw [List.countP_cons_of_pos hpy, hnone]
    · rw [List.countP_cons_of_neg hpy]
      obtain ⟨x, hx, hpx⟩ := hsome
      rcases List.mem_cons.1 hx with rfl | hx
      · exact absurd hpx hpy
      · exact ih hys ⟨x, hx, hpx⟩

variable {c}

/-- Subtracting one of each class from one of each class leaves one of each class that is left. -/
theorem Transversal.minus {ss ts chosen others : List Signature} (h : Transversal c ss chosen)
    (h' : Transversal c ts others) (hequiv : c.EquivalenceOn (ss ++ ts)) :
    OneOfEach c ss ts (minus c chosen others) := by
  have hleft {s : Signature} (hs : s ∈ ss) : s ∈ ss ++ ts := List.mem_append_left _ hs
  have hright {t : Signature} (ht : t ∈ ts) : t ∈ ss ++ ts := List.mem_append_right _ ht
  have hmem {s : Signature} (hs : s ∈ chosen) : s ∈ ss ++ ts := hleft (h.sublist.subset hs)
  refine ⟨List.filter_sublist.trans h.sublist, fun s hs t ht hsame => ?_, fun s hs hnone => ?_⟩
  · -- what `t` is covered by would be the same as `s` as well
    obtain ⟨hchosen, habsent⟩ := List.mem_filter.1 hs
    obtain ⟨u, hu, hcovers⟩ := h'.covers t ht
    have hu' := hright (h'.sublist.subset hu)
    have hsu : c.sameSignature s u := hequiv.trans s (hmem hchosen) t (hright ht) u hu' hsame
      (hequiv.symm u hu' t (hright ht) hcovers)
    rw [Bool.not_eq_true', List.any_eq_false] at habsent
    exact habsent u hu hsu
  · refine countP_eq_one ?_ ?_
    · refine (h.apart.sublist List.filter_sublist).imp_of_mem fun {a b} ha hb hapart hboth => ?_
      have ha' := hmem (List.mem_of_mem_filter ha)
      have hb' := hmem (List.mem_of_mem_filter hb)
      exact hapart (hequiv.trans a ha' s (hleft hs) b hb' hboth.1
        (hequiv.symm b hb' s (hleft hs) hboth.2))
    · obtain ⟨r, hr, hsame⟩ := h.covers s hs
      refine ⟨r, List.mem_filter.2 ⟨hr, ?_⟩, hsame⟩
      rw [Bool.not_eq_true', List.any_eq_false]
      intro u hu hru
      have hu' := hright (h'.sublist.subset hu)
      have hsr := hequiv.symm r (hmem hr) s (hleft hs) hsame
      exact hnone u (h'.sublist.subset hu) (hequiv.trans s (hleft hs) r (hmem hr) u hu' hsr hru)

/-! ## Parameters at one place -/

theorem specials_eq (p : GenericParameter) :
    p.specials = (specialConstraints.filter (·.1 p)).map (·.2) := by
  by_cases hclass : p.requiresReferenceType <;> by_cases hstruct : p.requiresValueType <;>
    by_cases hnew : p.requiresConstructor <;>
      simp [GenericParameter.specials, specialConstraints, hclass, hstruct, hnew]

theorem mem_specials_iff (p : GenericParameter) :
    ∀ s ∈ specialConstraints, (s.2 ∈ p.specials ↔ s.1 p = true) := by
  simp [specialConstraints, GenericParameter.specials]

theorem specialMinus_eq (p q : GenericParameter) :
    specialMinus p q = p.specials.filter (· ∉ q.specials) := by
  rw [specialMinus, specials_eq p, List.filter_map, List.filter_filter]
  refine congrArg _ (List.filter_congr fun s hs => ?_)
  have hmem := mem_specials_iff q s hs
  cases hp : s.1 p <;> cases hq : s.1 q <;> simp_all

/-- What says that these constraints of the parameter were added or removed. -/
def told (owner : ParameterOwner) (p : GenericParameter) (change : Change) (texts : List String) :
    List Difference :=
  texts.map (.constraint change owner.fullName p.name)

variable (c) in
/-- The differences between two parameters at the same place: what is gained, what is lost unless
removal is permitted, and a variance that was there and is another one now. -/
def Reported (owner : ParameterOwner) (left right : GenericParameter) (found : List Difference) :
    Prop :=
  ∃ gained lost : List Signature,
    OneOfEach c right.resolved left.resolved gained ∧
    OneOfEach c left.resolved right.resolved lost ∧
    found =
      told owner left .added
          (right.specials.filter (· ∉ left.specials) ++ gained.map Signature.fullName) ++
        (if owner.permitsRemoval then []
          else told owner left .removed
            (left.specials.filter (· ∉ right.specials) ++ lost.map Signature.fullName)) ++
        if left.variance ≠ .invariant ∧ left.variance ≠ right.variance then
          [.variance (if right.variance = .invariant then .removed else .changed) owner.fullName
            left.name left.variance right.variance]
        else []

theorem varianceChange_eq (owner : ParameterOwner) (left right : GenericParameter) :
    varianceChange owner left right =
      if left.variance ≠ .invariant ∧ left.variance ≠ right.variance then
        [.variance (if right.variance = .invariant then .removed else .changed) owner.fullName
          left.name left.variance right.variance]
      else [] := by
  unfold varianceChange
  by_cases hsame : left.variance = right.variance <;>
    by_cases hinvariant : left.variance = .invariant <;>
      simp [hsame, hinvariant]

theorem compareParameter_reported (owner : ParameterOwner) {left right : GenericParameter}
    (hequiv : c.EquivalenceOn (left.resolved ++ right.resolved)) :
    Reported c owner left right (compareParameter c owner left right) := by
  refine ⟨minus c (constraintTypes c right) (constraintTypes c left),
    minus c (constraintTypes c left) (constraintTypes c right), ?_, ?_, ?_⟩
  · exact (transversal_constraintTypes c right).minus (transversal_constraintTypes c left)
      hequiv.swap
  · exact (transversal_constraintTypes c left).minus (transversal_constraintTypes c right) hequiv
  · rw [compareParameter, constraintsMinus, constraintsMinus, specialMinus_eq, specialMinus_eq,
      varianceChange_eq]
    rfl

/-! ## The order of the constraint types -/

/-- Two lists in which each element meets exactly one of the other list are the same list but for
the order and what meets. -/
theorem exists_perm_forall₂ {α : Type} {r : α → α → Prop} {xs ys : List α}
    (hleft : ∀ x ∈ xs, ∃ y ∈ ys, r x y) (hright : ∀ y ∈ ys, ∃ x ∈ xs, r x y)
    (hxs : xs.Pairwise fun a b => ∀ y ∈ ys, ¬ (r a y ∧ r b y))
    (hys : ys.Pairwise fun a b => ∀ x ∈ xs, ¬ (r x a ∧ r x b)) :
    ∃ zs : List α, zs.Perm ys ∧ List.Forall₂ r xs zs := by
  induction xs generalizing ys with
  | nil =>
    have hnil : ys = [] := List.eq_nil_iff_forall_not_mem.2 fun y hy => by
      obtain ⟨x, hx, -⟩ := hright y hy
      cases hx
    exact ⟨[], .of_eq hnil.symm, .nil⟩
  | cons x xs ih =>
    obtain ⟨y, hy, hmeets⟩ := hleft x List.mem_cons_self
    obtain ⟨as, bs, rfl⟩ := List.append_of_mem hy
    obtain ⟨hx, hxs⟩ := List.pairwise_cons.1 hxs
    have hsymm {a b : α} (h : ∀ x' ∈ x :: xs, ¬ (r x' a ∧ r x' b)) :
        ∀ x' ∈ x :: xs, ¬ (r x' b ∧ r x' a) := fun x' hx' hboth => h x' hx' hboth.symm
    have hperm : (as ++ y :: bs).Perm (y :: (as ++ bs)) := List.perm_middle
    obtain ⟨hy', hys⟩ := List.pairwise_cons.1 (hys.perm hperm hsymm)
    have hrest {y' : α} (h : y' ∈ as ++ bs) : y' ∈ as ++ y :: bs :=
      hperm.mem_iff.2 (List.mem_cons_of_mem y h)
    obtain ⟨zs, hzs, hforall⟩ : ∃ zs : List α, zs.Perm (as ++ bs) ∧ List.Forall₂ r xs zs := by
      refine ih (fun x' hx' => ?_) (fun y' hy'' => ?_)
        (hxs.imp fun h y' hy'' => h y' (hrest hy''))
        (hys.imp fun h x' hx' => h x' (List.mem_cons_of_mem x hx'))
      · obtain ⟨y', hmem, hmeets'⟩ := hleft x' (List.mem_cons_of_mem x hx')
        rcases List.mem_cons.1 (hperm.mem_iff.1 hmem) with rfl | hmem
        · exact absurd ⟨hmeets, hmeets'⟩ (hx x' hx' y' hy)
        · exact ⟨y', hmem, hmeets'⟩
      · obtain ⟨x', hmem, hmeets'⟩ := hright y' (hrest hy'')
        rcases List.mem_cons.1 hmem with rfl | hmem
        · exact absurd ⟨hmeets, hmeets'⟩ (hy' y' hy'' x' List.mem_cons_self)
        · exact ⟨x', hmem, hmeets'⟩
    exact ⟨y :: zs, (hzs.cons y).trans hperm.symm, .cons hmeets hforall⟩

/-- What is counted once stands at one place. -/
theorem pairwise_of_countP_eq_one {α : Type} {p : α → Bool} {xs : List α}
    (h : xs.countP p = 1) : xs.Pairwise fun x y => ¬ (p x ∧ p y) := by
  refine List.pairwise_iff_forall_sublist.2 fun {x y} hsub hboth => ?_
  have hle := hsub.countP_le (p := p)
  rw [List.countP_cons_of_pos hboth.1, List.countP_cons_of_pos hboth.2, h] at hle
  omega

/-- Of permuted lists the same classes are left, each by some member of it. -/
theorem OneOfEach.perm {ss ss' ts ts' reported reported' : List Signature}
    (h : OneOfEach c ss ts reported) (h' : OneOfEach c ss' ts' reported')
    (hss : ss'.Perm ss) (hts : ts'.Perm ts) (hequiv : c.EquivalenceOn ss) :
    ∃ alike : List Signature, alike.Perm reported' ∧
      List.Forall₂ (fun s t => c.sameSignature s t = true) reported alike := by
  have hmem {s : Signature} (hs : s ∈ reported) : s ∈ ss := h.sublist.subset hs
  have hmem' {s : Signature} (hs : s ∈ reported') : s ∈ ss := hss.subset (h'.sublist.subset hs)
  -- how often each class is reported
  have honce {s : Signature} (hs : s ∈ reported') : reported.countP (c.sameSignature · s) = 1 :=
    h.once s (hmem' hs) fun t ht => h'.absent s hs t (hts.symm.subset ht)
  have honce' {s : Signature} (hs : s ∈ reported) : reported'.countP (c.sameSignature · s) = 1 :=
    h'.once s (hss.symm.subset (hmem hs)) fun t ht => h.absent s hs t (hts.subset ht)
  have hsome {p : Signature → Bool} {xs : List Signature} (hcount : xs.countP p = 1) :
      ∃ x ∈ xs, p x := List.countP_pos_iff.1 (by omega)
  refine exists_perm_forall₂ (fun s hs => ?_) (fun t ht => hsome (honce ht)) ?_ ?_
  · obtain ⟨t, ht, hsame⟩ := hsome (honce' hs)
    exact ⟨t, ht, hequiv.symm t (hmem' ht) s (hmem hs) hsame⟩
  · exact List.pairwise_iff_forall_sublist.2 fun {a b} hsub t ht hboth =>
      List.pairwise_iff_forall_sublist.1 (pairwise_of_countP_eq_one (honce ht)) hsub hboth
  · refine List.pairwise_iff_forall_sublist.2 fun {a b} hsub s hs hboth => ?_
    have ha := hmem' (hsub.subset List.mem_cons_self)
    have hb := hmem' (hsub.subset (List.mem_cons_of_mem a List.mem_cons_self))
    exact List.pairwise_iff_forall_sublist.1 (pairwise_of_countP_eq_one (honce' hs)) hsub
      ⟨hequiv.symm s (hmem hs) a ha hboth.1, hequiv.symm s (hmem hs) b hb hboth.2⟩

/-- Of permuted lists as many are reported, and the texts are permuted if each class has one. -/
theorem OneOfEach.texts_perm {ss ss' ts ts' reported reported' : List Signature}
    (h : OneOfEach c ss ts reported) (h' : OneOfEach c ss' ts' reported')
    (hss : ss'.Perm ss) (hts : ts'.Perm ts) (hequiv : c.EquivalenceOn ss) :
    reported'.length = reported.length ∧ (c.SpeltAlikeOn ss →
      (reported'.map Signature.fullName).Perm (reported.map Signature.fullName)) := by
  obtain ⟨alike, hperm, hforall⟩ := h.perm h' hss hts hequiv
  refine ⟨hperm.length_eq.symm.trans hforall.length_eq.symm, fun hspelt => ?_⟩
  have htexts : reported.map Signature.fullName = alike.map Signature.fullName := by
    refine List.forall₂_eq_eq_eq ▸ List.forall₂_map_left_iff.2 (List.forall₂_map_right_iff.2 ?_)
    refine List.forall₂_iff_zip.2 ⟨hforall.length_eq, fun {s t} hst => ?_⟩
    have hmem := List.of_mem_zip hst
    exact hspelt s (h.sublist.subset hmem.1) t
      (hss.subset (h'.sublist.subset (hperm.subset hmem.2))) (List.forall₂_zip hforall hst)
  exact htexts ▸ (hperm.map Signature.fullName).symm

/-- The differences are the same but for their order and for the member of its class that each
constraint type is told by. -/
theorem Reported.permuted {owner : ParameterOwner} {left right left' right' : GenericParameter}
    {found found' : List Difference} (h : Reported c owner left right found)
    (h' : Reported c owner left' right' found') (hleft : left.Permuted left')
    (hright : right.Permuted right')
    (hequiv : c.EquivalenceOn (left.resolved ++ right.resolved)) :
    found'.length = found.length ∧
      (c.SpeltAlikeOn (left.resolved ++ right.resolved) → found'.Perm found) := by
  obtain ⟨gained, lost, hgained, hlost, rfl⟩ := h
  obtain ⟨gained', lost', hgained', hlost', rfl⟩ := h'
  obtain ⟨hgainedlength, hgainedtexts⟩ := hgained.texts_perm hgained' hright.resolved
    hleft.resolved (hequiv.mono (List.subset_append_right _ _))
  obtain ⟨hlostlength, hlosttexts⟩ := hlost.texts_perm hlost' hleft.resolved hright.resolved
    (hequiv.mono (List.subset_append_left _ _))
  obtain ⟨ls, -, rfl⟩ := hleft
  obtain ⟨rs, -, rfl⟩ := hright
  constructor
  · split <;> simp only [told, List.length_append, List.length_map, hgainedlength, hlostlength] <;>
      rfl
  · intro hspelt
    have hadded := hgainedtexts fun s hs t ht =>
      hspelt s (List.mem_append_right _ hs) t (List.mem_append_right _ ht)
    have hremoved := hlosttexts fun s hs t ht =>
      hspelt s (List.mem_append_left _ hs) t (List.mem_append_left _ ht)
    refine (List.Perm.append ?_ ?_).append_right _
    · exact (hadded.append_left _).map _
    · split
      · exact .refl _
      · exact (hremoved.append_left _).map _

/-! ## Parameter lists -/

/-- What holds at each place. -/
abbrev AtEachPlace (ls rs : List GenericParameter)
    (P : GenericParameter → GenericParameter → Prop) : Prop :=
  ∀ p ∈ ls.zip rs, P p.1 p.2

variable (c)

theorem compareParameter_resolvedOnly (owner : ParameterOwner) (left right : GenericParameter) :
    compareParameter c owner left.resolvedOnly right.resolvedOnly =
      compareParameter c owner left right := by
  have htypes (p : GenericParameter) : constraintTypes c p.resolvedOnly = constraintTypes c p :=
    congrArg (distinctFrom c []) p.resolved_resolvedOnly
  simp only [compareParameter, constraintsMinus, htypes]
  rfl

theorem compareParameters_resolvedOnly (owner : ParameterOwner) (ls rs : List GenericParameter) :
    compareParameters c owner (ls.map GenericParameter.resolvedOnly)
        (rs.map GenericParameter.resolvedOnly) =
      compareParameters c owner ls rs := by
  simp only [compareParameters, List.length_map, List.zip_map, List.flatMap_map, Prod.map_fst,
    Prod.map_snd, compareParameter_resolvedOnly]

variable {c}

theorem flatMap_permuted {owner : ParameterOwner} {ls rs ls' rs' : List GenericParameter}
    (hls : List.Forall₂ GenericParameter.Permuted ls ls')
    (hrs : List.Forall₂ GenericParameter.Permuted rs rs')
    (hequiv : AtEachPlace ls rs fun l r => c.EquivalenceOn (l.resolved ++ r.resolved)) :
    let found := (ls.zip rs).flatMap fun p => compareParameter c owner p.1 p.2
    let found' := (ls'.zip rs').flatMap fun p => compareParameter c owner p.1 p.2
    found'.length = found.length ∧
      ((AtEachPlace ls rs fun l r => c.SpeltAlikeOn (l.resolved ++ r.resolved)) →
        found'.Perm found) := by
  induction hls generalizing rs rs' with
  | nil => exact ⟨rfl, fun _ => .nil⟩
  | @cons l l' ls ls' hl _ ih =>
    cases hrs with
    | nil => exact ⟨rfl, fun _ => .nil⟩
    | @cons r r' rs rs' hr hrs =>
      rw [AtEachPlace, List.zip_cons_cons, List.forall_mem_cons] at hequiv
      obtain ⟨hlength, hperm⟩ := ih hrs hequiv.2
      -- at the first place the permuted parameters report what the others do
      have hequiv' : c.EquivalenceOn (l'.resolved ++ r'.resolved) :=
        hequiv.1.mono (List.append_subset.2
          ⟨List.Subset.trans hl.resolved.subset (List.subset_append_left _ _),
            List.Subset.trans hr.resolved.subset (List.subset_append_right _ _)⟩)
      obtain ⟨hlength', hperm'⟩ := (compareParameter_reported owner hequiv.1).permuted
        (compareParameter_reported owner hequiv') hl hr hequiv.1
      simp only [List.zip_cons_cons, List.flatMap_cons, List.length_append, AtEachPlace,
        List.forall_mem_cons]
      exact ⟨by rw [hlength, hlength'], fun hspelt => (hperm' hspelt.1).append (hperm hspelt.2)⟩

theorem compareParameters_permuted {owner : ParameterOwner} {ls rs ls' rs' : List GenericParameter}
    (hls : List.Forall₂ GenericParameter.Permuted ls ls')
    (hrs : List.Forall₂ GenericParameter.Permuted rs rs')
    (hequiv : AtEachPlace ls rs fun l r => c.EquivalenceOn (l.resolved ++ r.resolved)) :
    let found := compareParameters c owner ls rs
    let found' := compareParameters c owner ls' rs'
    found'.2 = found.2 ∧ found'.1.length = found.1.length ∧
      ((AtEachPlace ls rs fun l r => c.SpeltAlikeOn (l.resolved ++ r.resolved)) →
        found'.1.Perm found.1) := by
  simp only [compareParameters, ← hls.length_eq, ← hrs.length_eq]
  split
  · exact ⟨rfl, flatMap_permuted hls hrs hequiv⟩
  · exact ⟨rfl, rfl, fun _ => .nil⟩

variable (c)

/-- The generic parameters of two types or of two methods at one node, the declaration on the left
that they belong to, and what the rule says about them. Removal is permitted if the type is sealed,
or if the method is not virtual. -/
inductive Paired : ParameterOwner → List GenericParameter → List GenericParameter → Verdict → Prop
  | types (n : TypeNode) (left right : Definition) (h : n.types = .both left right) :
    Paired ⟨left.type.fullName, left.type.isSealed⟩ left.type.genericParameters
      right.type.genericParameters (Rule.onTypeNode c n .genericConstraints)
  | methods (n : MemberNode) (left right : Member) (h : n = .both left right) (l r : Method)
    (hleft : left.method? = some l) (hright : right.method? = some r) :
    Paired ⟨left.fullName, !left.isVirtual⟩ l.genericParameters r.genericParameters
      (Rule.onMemberNode c n .genericConstraints)

variable {c}

theorem Paired.eq {owner : ParameterOwner} {ls rs : List GenericParameter} {v : Verdict}
    (h : Paired c owner ls rs v) :
    v = ⟨(compareParameters c owner ls rs).1, (compareParameters c owner ls rs).2⟩ := by
  cases h with
  | types n left right h => simp only [Rule.onTypeNode, h, Rule.onTypes, typeParameters]
  | methods n left right h l r hleft hright =>
    simp only [Rule.onMemberNode, h, Rule.onMembers, methodParameters, hleft, hright]

/-- The rule reports at each place what `Reported` says, and nothing else. It says the same without
the constraint types that have no definition, and the same up to order whatever their order is. -/
theorem paired_exact {owner : ParameterOwner} {ls rs : List GenericParameter} {v : Verdict}
    (h : Paired c owner ls rs v)
    (hequiv : AtEachPlace ls rs fun l r => c.EquivalenceOn (l.resolved ++ r.resolved)) :
    (ls.length = rs.length → ∃ found : List (List Difference),
      List.Forall₂ (fun p ds => Reported c owner p.1 p.2 ds) (ls.zip rs) found ∧
      v = ⟨found.flatten, []⟩) ∧
    (ls.length ≠ rs.length →
      v = ⟨[], [⟨.aritiesDiffer owner.fullName ls.length rs.length, none⟩]⟩) ∧
    (∀ v', Paired c owner (ls.map GenericParameter.resolvedOnly)
      (rs.map GenericParameter.resolvedOnly) v' → v' = v) ∧
    ∀ ls' rs' v', List.Forall₂ GenericParameter.Permuted ls ls' →
      List.Forall₂ GenericParameter.Permuted rs rs' → Paired c owner ls' rs' v' →
      v'.diagnostics = v.diagnostics ∧ v'.differences.length = v.differences.length ∧
      ((AtEachPlace ls rs fun l r => c.SpeltAlikeOn (l.resolved ++ r.resolved)) →
        v'.differences.Perm v.differences) := by
  obtain rfl := h.eq
  refine ⟨fun hlength => ?_, fun hlength => ?_, fun v' h' => ?_, fun ls' rs' v' hls hrs h' => ?_⟩
  · refine ⟨(ls.zip rs).map fun p => compareParameter c owner p.1 p.2, ?_, ?_⟩
    · exact List.forall₂_map_right_iff.2 (List.forall₂_same.2 fun p hp =>
        compareParameter_reported owner (hequiv p hp))
    · rw [compareParameters, if_pos hlength, List.flatMap_def]
  · rw [compareParameters, if_neg hlength]
  · rw [h'.eq, compareParameters_resolvedOnly]
  · rw [h'.eq]
    exact compareParameters_permuted hls hrs hequiv

/-- The parameter of a class `Pool`, in some version of its library. -/
def poolParameter (version : UInt16) (flags : UInt32) (names : List String) : GenericParameter :=
  ⟨"T", 0, flags, names.map fun name =>
    .named (.mk "Lib" name (.assembly ⟨"Lib", ⟨version, 0, 0, 0⟩, none⟩) .definition)⟩

def pool (version : UInt16) (p : GenericParameter) : Definition :=
  ⟨⟨⟨0, 0⟩, [0]⟩, ⟨.mk "Lib" "Pool" (.assembly ⟨"Lib", ⟨version, 0, 0, 0⟩, none⟩) .definition,
    TypeDefinition.publicFlag, [p], [], []⟩⟩

/-- `class`, `A` and `B` are demanded before, `new()`, `A` and `C` after; `A` and `C` twice. -/
def pools : TypeNode :=
  ⟨.both (pool 1 (poolParameter 1 GenericParameter.referenceTypeFlag ["A", "B", "A"]))
    (pool 2 (poolParameter 2 GenericParameter.constructorFlag ["C", "A", "C"])), .empty⟩

theorem paired_exact_pools :
    let l := poolParameter 1 GenericParameter.referenceTypeFlag ["A", "B", "A"]
    let r := poolParameter 2 GenericParameter.constructorFlag ["C", "A", "C"]
    Comparer.agnostic.EquivalenceOn (l.resolved ++ r.resolved) ∧
      ∃ found : List Difference, Reported .agnostic ⟨"Lib.Pool", false⟩ l r found ∧
        Rule.onTypeNode .agnostic pools .genericConstraints = ⟨found, []⟩ := by
  intro l r
  have hequiv : Comparer.agnostic.EquivalenceOn (l.resolved ++ r.resolved) :=
    ⟨by decide +kernel, by decide +kernel⟩
  obtain ⟨found, hfound, heq⟩ := (paired_exact (.types pools _ _ rfl)
    (List.forall_mem_singleton.2 hequiv)).1 rfl
  obtain ⟨ds, rest, hds, hrest, rfl⟩ := List.forall₂_cons_left_iff.1 hfound
  obtain rfl := List.forall₂_nil_left_iff.1 hrest
  rw [List.flatten_cons, List.flatten_nil, List.append_nil] at heq
  exact ⟨hequiv, ds, hds, heq⟩

example : (Rule.onTypeNode .agnostic pools .genericConstraints).differences =
    [.constraint .added "Lib.Pool" "T" "new()",
      .constraint .added "Lib.Pool" "T" "Lib.C",
      .constraint .removed "Lib.Pool" "T" "class",
      .constraint .removed "Lib.Pool" "T" "Lib.B"] := by
  decide +kernel

end Rules

end ApiEvolution
