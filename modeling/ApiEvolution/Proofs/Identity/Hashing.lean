import ApiEvolution.Fingerprint
import ApiEvolution.Proofs.Universe.History

/-!
# Declarations that are the same have one fingerprint

A type is compared by its own path and scope, or else by where its definition is declared, but its
fingerprint is made of its own path. Both agree for references that are `Faithful`: what they are
bound to goes by their path. The references that universes supply are, as long as no nested
exported type is looked up by its name, so that what is the same for a comparer has one hash,
whatever the hash function (`History.fingerprint_eq_of_same`). Members need no such condition,
since what declares them is a definition.
-/

namespace ApiEvolution

/-! ## References that are bound to what goes by their path -/

mutual

/-- What the reference is bound to goes by its path, and so do the declaring types. -/
def TypeRef.Faithful : TypeRef → Prop
  | .mk space name scope (.resolved _ d) =>
    Scope.Faithful scope ∧ d.path = (space, name) :: scope.path ∧ TypeRef.Faithful d
  | .mk _ _ scope _ => Scope.Faithful scope

def Scope.Faithful : Scope → Prop
  | .assembly _ => True
  | .nested declaring => TypeRef.Faithful declaring

end

mutual

theorem TypeRef.faithful_of_isDefinitionChain : (t : TypeRef) → t.isDefinitionChain → t.Faithful
  | .mk _ _ scope .definition, h => Scope.faithful_of_isDefinitionChain scope h

theorem Scope.faithful_of_isDefinitionChain : (s : Scope) → s.isDefinitionChain → s.Faithful
  | .assembly _, _ => trivial
  | .nested d, h => TypeRef.faithful_of_isDefinitionChain d h

end

theorem TypeRef.Faithful.scope {t : TypeRef} (h : t.Faithful) : t.scope.Faithful := by
  obtain ⟨space, name, scope, binding⟩ := t
  cases binding with
  | resolved id d => exact h.1
  | _ => exact h

/-- The definition goes by the path of the reference. -/
theorem TypeRef.Faithful.definition? {t d : TypeRef} (h : t.Faithful) (hd : t.definition? = some d) :
    d.Faithful ∧ d.path = t.path := by
  obtain ⟨space, name, scope, binding⟩ := t
  cases binding with
  | definition =>
    cases hd
    exact ⟨h, rfl⟩
  | resolved id e =>
    cases hd
    exact ⟨h.2.2, h.2.1⟩
  | _ => cases hd

namespace Comparer

variable {c : Comparer}

/-! ## Types -/

/-- The paths of types that are the same agree if those of their scopes do. -/
theorem hereditary_path :
    Hereditary (fun t => ∀ u, t.Faithful → u.Faithful → c.sameType t u → t.path = u.path)
      fun s => ∀ s', s.Faithful → s'.Faithful → c.sameDeclaring s s' → s.path = s'.path where
  type t hscope hhome u ht hu hsame := by
    obtain ⟨hspace, hname, hroute⟩ := sameType_iff.1 hsame
    rw [TypeRef.path_eq t, TypeRef.path_eq u, hspace, hname]
    refine congrArg (_ :: ·) ?_
    rcases hroute with hroute | ⟨d, e, hd, he, hroute⟩
    · exact hscope u.scope ht.scope hu.scope (sameDeclaring_of_sameScope hroute)
    · obtain ⟨hdfaithful, hdpath⟩ := ht.definition? hd
      obtain ⟨hefaithful, hepath⟩ := hu.definition? he
      rw [TypeRef.path_eq d, TypeRef.path_eq t] at hdpath
      rw [TypeRef.path_eq e, TypeRef.path_eq u] at hepath
      rw [← (List.cons.inj hdpath).2, ← (List.cons.inj hepath).2]
      exact hhome d hd e.scope hdfaithful.scope hefaithful.scope hroute
  assembly a s' _ _ hsame := by
    cases s' with
    | assembly b => rfl
    | nested e => cases hsame
  nested d hd s' hs hs' hsame := by
    cases s' with
    | assembly b => cases hsame
    | nested e => exact hd e hs hs' hsame

/-- Faithful references to the same type have one path. -/
theorem path_eq_of_sameType (t u : TypeRef) (ht : t.Faithful) (hu : u.Faithful)
    (hsame : c.sameType t u) : t.path = u.path :=
  hereditary_path.all t u ht hu hsame

/-! ## Signatures -/

mutual

/-- The same signature over faithful references has one fingerprint. -/
theorem fingerprint_eq_of_sameSignature : (s s' : Signature) → (∀ r ∈ s.refs, r.Faithful) →
    (∀ r ∈ s'.refs, r.Faithful) → c.sameSignature s s' → s.fingerprint = s'.fingerprint
  | .named t, .named u, hs, hs', h => by
    have hpath := path_eq_of_sameType t u (hs t (List.mem_singleton_self t))
      (hs' u (List.mem_singleton_self u)) h
    rw [Signature.fingerprint, Signature.fingerprint, TypeRef.fingerprint_eq_of_path hpath]
  | .generic t ss, .generic u ss', hs, hs', h => by
    obtain ⟨htype, hsame⟩ := Bool.and_eq_true_iff.1 h
    have hpath := path_eq_of_sameType t u (hs t List.mem_cons_self) (hs' u List.mem_cons_self) htype
    obtain ⟨hlength, harguments⟩ := fingerprintOf_eq_of_sameSignatures ss ss'
      (fun r hr => hs r (List.mem_cons_of_mem t hr))
      (fun r hr => hs' r (List.mem_cons_of_mem u hr)) hsame
    rw [Signature.fingerprint, Signature.fingerprint, TypeRef.fingerprint_eq_of_path hpath, hlength,
      harguments]
  | .typeParameter i, .typeParameter j, _, _, h => by rw [beq_iff_eq.1 h]
  | .methodParameter i, .methodParameter j, _, _, h => by rw [beq_iff_eq.1 h]
  | .array s, .array s', hs, hs', h =>
    congrArg (Atom.number 4 :: ·) (fingerprint_eq_of_sameSignature s s' hs hs' h)
  | .byReference s, .byReference s', hs, hs', h =>
    congrArg (Atom.number 5 :: ·) (fingerprint_eq_of_sameSignature s s' hs hs' h)
  | .pointer s, .pointer s', hs, hs', h =>
    congrArg (Atom.number 6 :: ·) (fingerprint_eq_of_sameSignature s s' hs hs' h)

theorem fingerprintOf_eq_of_sameSignatures : (ss ss' : List Signature) →
    (∀ r ∈ Signature.refsOf ss, r.Faithful) → (∀ r ∈ Signature.refsOf ss', r.Faithful) →
    c.sameSignatures ss ss' →
    ss.length = ss'.length ∧ Signature.fingerprintOf ss = Signature.fingerprintOf ss'
  | [], [], _, _, _ => ⟨rfl, rfl⟩
  | s :: ss, s' :: ss', hs, hs', h => by
    obtain ⟨hsame, hrest⟩ := Bool.and_eq_true_iff.1 h
    have hhead := fingerprint_eq_of_sameSignature s s'
      (fun r hr => hs r (List.mem_append_left _ hr))
      (fun r hr => hs' r (List.mem_append_left _ hr)) hsame
    obtain ⟨hlength, htail⟩ := fingerprintOf_eq_of_sameSignatures ss ss'
      (fun r hr => hs r (List.mem_append_right _ hr))
      (fun r hr => hs' r (List.mem_append_right _ hr)) hrest
    exact ⟨congrArg (· + 1) hlength, by
      rw [Signature.fingerprintOf, hhead, htail, Signature.fingerprintOf]⟩

end

/-! ## Members -/

theorem length_eq_of_sameSignatures {ss ss' : List Signature} (h : c.sameSignatures ss ss') :
    ss.length = ss'.length := by
  induction ss generalizing ss' with
  | nil =>
    cases ss' with
    | nil => rfl
    | cons s' ss' => cases h
  | cons s ss ih =>
    cases ss' with
    | nil => cases h
    | cons s' ss' => exact congrArg (· + 1) (ih (Bool.and_eq_true_iff.1 h).2)

theorem fingerprint_eq_of_sameKind {k k' : MemberKind} (h : c.sameKind k k') :
    k.fingerprint = k'.fingerprint := by
  cases k <;> cases k' <;> try cases h
  all_goals try rfl
  next m n =>
    obtain ⟨harity, hparameters⟩ := Bool.and_eq_true_iff.1 h
    rw [MemberKind.fingerprint, MemberKind.fingerprint, beq_iff_eq.1 harity,
      length_eq_of_sameSignatures hparameters]

/-- The same member has one fingerprint, whatever its signature refers to. -/
theorem fingerprint_eq_of_sameMember {m n : Member} (hm : m.declaringType.Faithful)
    (hn : n.declaringType.Faithful) (h : c.sameMember m n) : m.fingerprint = n.fingerprint := by
  obtain ⟨hboth, hkind⟩ := Bool.and_eq_true_iff.1 h
  obtain ⟨hname, htype⟩ := Bool.and_eq_true_iff.1 hboth
  have hpath := path_eq_of_sameType _ _ hm hn htype
  rw [Member.fingerprint, Member.fingerprint, beq_iff_eq.1 hname,
    TypeRef.fingerprint_eq_of_path hpath, fingerprint_eq_of_sameKind hkind]

end Comparer

/-! ## What universes supply -/

variable {upright : Prop} {c : Chronicle}

mutual

/-- References that are bound aptly are faithful where all assemblies are upright. -/
theorem TypeRef.Apt.faithful (hc : c.Built upright) (hupright : upright) : (t : TypeRef) →
    t.Apt upright c → t.Faithful
  | .mk space name scope binding, h => by
    have hscope := Scope.Apt.faithful hc hupright scope h.1
    cases binding with
    | resolved id d =>
      obtain ⟨⟨t, ht, rfl⟩, hnames⟩ := h.2 id d rfl
      exact ⟨hscope, hnames.eq hupright,
        TypeRef.faithful_of_isDefinitionChain _ (hc.declared ht).descriptor⟩
    | _ => exact hscope

theorem Scope.Apt.faithful (hc : c.Built upright) (hupright : upright) : (s : Scope) →
    s.Apt upright c → s.Faithful
  | .assembly _, _ => trivial
  | .nested d, h => TypeRef.Apt.faithful hc hupright d h

end

namespace History

/-- Some assembly that the universe kept at some time has the member. -/
def HasMember (h : History) (m : Member) : Prop :=
  ∃ past l t, past <+: h.calls ∧ l ∈ (h.after past).assemblies ∧ t ∈ l.assembly.allTypes ∧
    m ∈ t.members

variable {h h' : History}

theorem Supplies.faithful (hread : Universe.ReadsBuilt True h.read) {t : TypeRef}
    (ht : h.Supplies t) : t.Faithful := by
  obtain ⟨c, hc, hapt⟩ := ht.apt hread
  exact hapt.faithful hc.built trivial

/-- A member is declared by a definition. -/
theorem HasMember.faithful (hread : ∀ p a, h.read p = .ok a → a.Built) {m : Member}
    (hm : h.HasMember m) : m.declaringType.Faithful := by
  obtain ⟨past, l, t, -, hl, ht, hm⟩ := hm
  obtain ⟨c, hc⟩ : ∃ c, (h.after past).Records False c :=
    h.records_after (fun p a ha => ⟨hread p a ha, False.elim⟩) past
  have hbuilt := (hc.built _ (Chronicle.mem_of_assembly? (hc.keeps l hl).assembly)).1
  -- only the copy without bindings is as it was declared
  have hdeclared : t.detached.Declared := by
    refine TypeDefinition.forall_walk (P := fun t => t.detached.Declared) (fun t ht u hu => ?_) _
      (fun t ht => ?_) t ht
    · refine ht.nestedTypes ?_
      rw [TypeDefinition.nestedTypes_detached]
      exact List.mem_map_of_mem hu
    · refine hbuilt.topLevel ?_
      rw [Assembly.topLevel_detached]
      exact List.mem_map_of_mem ht
  have hmember : m.map TypeRef.detached ∈ t.detached.members := by
    rw [TypeDefinition.members_detached]
    exact List.mem_map_of_mem hm
  have hchain := hdeclared.declaringType hmember
  rw [Member.map, TypeRef.isDefinitionChain_detached] at hchain
  exact TypeRef.faithful_of_isDefinitionChain _ hchain

/-- What is the same for a comparer has one fingerprint, and so one hash: members in any case, types
and signatures if no nested exported type can be looked up by its name. -/
theorem fingerprint_eq_of_same (c : Comparer) (hread : ∀ p a, h.read p = .ok a → a.Built)
    (hread' : ∀ p a, h'.read p = .ok a → a.Built) :
    ((∀ p a, h.read p = .ok a → a.Upright) → (∀ p a, h'.read p = .ok a → a.Upright) →
      (∀ t u, h.Supplies t → h'.Supplies u → c.sameType t u → t.fingerprint = u.fingerprint) ∧
      ∀ s s' : Signature, (∀ r ∈ s.refs, h.Supplies r) → (∀ r ∈ s'.refs, h'.Supplies r) →
        c.sameSignature s s' → s.fingerprint = s'.fingerprint) ∧
    ∀ m n, h.HasMember m → h'.HasMember n → c.sameMember m n → m.fingerprint = n.fingerprint := by
  refine ⟨fun hupright hupright' => ?_, fun m n hm hn hsame => ?_⟩
  · have hfaithful : ∀ t, h.Supplies t → t.Faithful := fun t ht =>
      ht.faithful fun p a ha => ⟨hread p a ha, fun _ => hupright p a ha⟩
    have hfaithful' : ∀ t, h'.Supplies t → t.Faithful := fun t ht =>
      ht.faithful fun p a ha => ⟨hread' p a ha, fun _ => hupright' p a ha⟩
    refine ⟨fun t u ht hu hsame => ?_, fun s s' hs hs' hsame => ?_⟩
    · exact TypeRef.fingerprint_eq_of_path
        (Comparer.path_eq_of_sameType t u (hfaithful t ht) (hfaithful' u hu) hsame)
    · exact Comparer.fingerprint_eq_of_sameSignature s s' (fun r hr => hfaithful r (hs r hr))
        (fun r hr => hfaithful' r (hs' r hr)) hsame
  · exact Comparer.fingerprint_eq_of_sameMember (hm.faithful hread) (hn.faithful hread') hsame

/-- The reference of `P` is bound to the definition that the exported type leads to. -/
theorem supplies_bound {h : History} {r : TypeRef}
    (hr : h.now.assemblies.head?.map (·.assembly.references) = some [r]) : h.Supplies r := by
  obtain ⟨l, hl, hrefs⟩ := Option.map_eq_some_iff.1 hr
  exact .held List.prefix_rfl (List.mem_of_mem_head? hl) (hrefs ▸ List.mem_singleton_self r)

def boundToT : TypeRef :=
  (typeOfA "T").withBinding (.resolved ⟨⟨0, 2⟩, [0]⟩ (definitionInE "T"))

theorem supplies_boundToT : moved.Supplies boundToT :=
  supplies_bound (by cbv)

theorem supplies_definitionInE (h : History) (name : String) : h.Supplies (definitionInE name) :=
  .topLevel fun _ _ hno => by cases hno

theorem fingerprint_eq_of_same_moved :
    boundToT.fingerprint = (definitionInE "T").fingerprint := by
  have hbuilt : ∀ p a, moved.read p = .ok a → a.Built := built_forwarding rfl rfl
  have hupright : ∀ p a, moved.read p = .ok a → a.Upright := upright_forwarding rfl
  exact ((fingerprint_eq_of_same .strict hbuilt hbuilt).1 hupright hupright).1 boundToT
    (definitionInE "T") supplies_boundToT (supplies_definitionInE moved "T") (by decide)

def boundToInner : TypeRef :=
  (typeOfA "Inner").withBinding (.resolved ⟨⟨0, 2⟩, [0, 0]⟩ innerDefinition)

/-- A reference to a top-level type that leads to a nested one is the same as that one, but has
another fingerprint. -/
theorem exists_same_fingerprint_ne :
    (∀ p a, nestedAway.read p = .ok a → a.Built) ∧ nestedAway.Supplies boundToInner ∧
      nestedAway.Supplies innerDefinition ∧
      (∀ c : Comparer, c.sameType boundToInner innerDefinition) ∧
      boundToInner.fingerprint ≠ innerDefinition.fingerprint := by
  refine ⟨built_forwarding rfl rfl, ?_, .nested (fun _ _ hno => by cases hno)
    (supplies_definitionInE _ _), fun c => ?_, by decide⟩
  · exact supplies_bound (by cbv)
  · obtain ⟨versionAgnostic⟩ := c
    cases versionAgnostic <;> decide

end History

end ApiEvolution
