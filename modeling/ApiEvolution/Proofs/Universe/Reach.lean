import ApiEvolution.Proofs.Universe.Lookup

/-!
# Shortcuts

An exported type that is bound already is not followed, and it does not count. `World.Reaches` says
what a reference leads to if some exported types are such shortcuts. With more shortcuts more is
reached (`Reaches.mono`), but nothing that could not be found by following more exported types
(`Reaches.lookup`), and nothing less than without any (`reaches_of_lookupWithin`).
-/

namespace ApiEvolution

/-- In the assembly `a` it is the exported type `e` that leads on. -/
structure Assembly.Forwards (a : Assembly) (space name : String) (e : TypeRef) : Prop where
  absent : a.find? space name = none
  exported : a.findExported? space name = some e
  away : e.assembly.agrees a.name true = false

namespace World

/-- Exported types that are bound, by simple name of the assembly, namespace and name. -/
abbrev Shortcuts := String → String → String → Prop

variable {w : World}

/-- The reference leads to the place by fewer than `hops` exported types that are no shortcuts. -/
inductive Reaches (w : World) (known : Shortcuts) : Nat → TypeRef → Place → Prop
  /-- a definition of the assembly -/
  | own {hops : Nat} {space name : String} {a : AssemblyName} {binding : Binding} {b : Assembly}
    {f : Found} (hb : w (Universe.key a) = some b) (hf : b.find? space name = some f) :
    Reaches w known (hops + 1) (.mk space name (.assembly a) binding) ⟨Universe.key a, f⟩
  /-- an exported type that is bound -/
  | shortcut {hops n : Nat} {space name : String} {a : AssemblyName} {binding : Binding}
    {b : Assembly} {e : TypeRef} {x : Place} (hb : w (Universe.key a) = some b)
    (he : b.Forwards space name e) (hknown : known (Universe.key a) space name)
    (hx : w.lookupWithin n e = some x) :
    Reaches w known (hops + 1) (.mk space name (.assembly a) binding) x
  /-- an exported type that is followed -/
  | forwarded {hops : Nat} {space name : String} {a : AssemblyName} {binding : Binding}
    {b : Assembly} {e : TypeRef} {x : Place} (hb : w (Universe.key a) = some b)
    (he : b.Forwards space name e) (hx : Reaches w known hops e x) :
    Reaches w known (hops + 1) (.mk space name (.assembly a) binding) x
  /-- a type nested in one that was found -/
  | nested {hops : Nat} {space name : String} {d : TypeRef} {binding : Binding} {x y : Place}
    (hy : Reaches w known hops d y) (hx : y.nested? space name = some x) :
    Reaches w known hops (.mk space name (.nested d) binding) x

variable {known known' : Shortcuts} {hops : Nat} {t : TypeRef} {x y : Place}

/-- With more shortcuts no less is reached. -/
theorem Reaches.mono (h : w.Reaches known hops t x)
    (hknown : ∀ k space name, known k space name → known' k space name) :
    w.Reaches known' hops t x := by
  induction h with
  | own hb hf => exact .own hb hf
  | shortcut hb he hk hx => exact .shortcut hb he (hknown _ _ _ hk) hx
  | forwarded hb he _ ih => exact .forwarded hb he ih
  | nested _ hx ih => exact .nested ih hx

theorem not_reaches_zero : ¬w.Reaches known 0 t x := by
  intro h
  generalize hn : 0 = n at h
  induction h with
  | nested _ _ ih => exact ih hn
  | _ => omega

/-- In an assembly a definition of its own is reached, or what its exported type leads to. -/
theorem reaches_assembly_iff {space name : String} {a : AssemblyName} {binding : Binding} :
    w.Reaches known (hops + 1) (.mk space name (.assembly a) binding) x ↔
      ∃ b, w (Universe.key a) = some b ∧
        ((∃ f, b.find? space name = some f ∧ x = ⟨Universe.key a, f⟩) ∨
          ∃ e, b.Forwards space name e ∧ (w.Reaches known hops e x ∨
            known (Universe.key a) space name ∧ ∃ n, w.lookupWithin n e = some x)) := by
  constructor
  · intro h
    cases h with
    | own hb hf => exact ⟨_, hb, .inl ⟨_, hf, rfl⟩⟩
    | shortcut hb he hknown hx => exact ⟨_, hb, .inr ⟨_, he, .inr ⟨hknown, _, hx⟩⟩⟩
    | forwarded hb he hx => exact ⟨_, hb, .inr ⟨_, he, .inl hx⟩⟩
  · rintro ⟨b, hb, ⟨f, hf, rfl⟩ | ⟨e, he, hx | ⟨hknown, n, hx⟩⟩⟩
    · exact .own hb hf
    · exact .forwarded hb he hx
    · exact .shortcut hb he hknown hx

/-- Where an exported type leads on, what is reached is what it leads to. -/
theorem reaches_iff_of_forwards {space name : String} {a : AssemblyName} {binding : Binding}
    {b : Assembly} {e : TypeRef} (hb : w (Universe.key a) = some b) (he : b.Forwards space name e) :
    w.Reaches known (hops + 1) (.mk space name (.assembly a) binding) x ↔
      w.Reaches known hops e x ∨
        known (Universe.key a) space name ∧ ∃ n, w.lookupWithin n e = some x := by
  refine reaches_assembly_iff.trans ⟨?_, fun hx => ⟨b, hb, .inr ⟨e, he, hx⟩⟩⟩
  rintro ⟨c, hc, ⟨f, hf, -⟩ | ⟨e', he', hx⟩⟩
  all_goals
    rw [hb] at hc
    cases hc
  · rw [he.absent] at hf
    cases hf
  · obtain rfl : e = e' := Option.some.inj (he.exported.symm.trans he'.exported)
    exact hx

/-- Nothing is reached in an assembly that has no such definition and no exported type to follow. -/
theorem not_reaches_assembly {space name : String} {a : AssemblyName} {binding : Binding}
    {b : Assembly} (hb : w (Universe.key a) = some b) (hf : b.find? space name = none)
    (hno : ∀ e, ¬b.Forwards space name e) :
    ¬w.Reaches known (hops + 1) (.mk space name (.assembly a) binding) x := by
  rw [reaches_assembly_iff]
  rintro ⟨c, hc, ⟨f, hf', -⟩ | ⟨e, he, -⟩⟩
  all_goals
    rw [hb] at hc
    cases hc
  · rw [hf] at hf'
    cases hf'
  · exact hno e he

theorem reaches_nested_iff {space name : String} {d : TypeRef} {binding : Binding} :
    w.Reaches known hops (.mk space name (.nested d) binding) x ↔
      ∃ y, w.Reaches known hops d y ∧ y.nested? space name = some x := by
  constructor
  · intro h
    cases h with
    | nested hy hx => exact ⟨_, hy, hx⟩
  · rintro ⟨y, hy, hx⟩
    exact .nested hy hx

/-! ## Looking up -/

theorem inAssembly_of_forwards {follow : TypeRef → Option Place} {space name key : String}
    {a : Assembly} {e : TypeRef} (h : a.Forwards space name e) :
    inAssembly follow space name key a = follow e := by
  rw [inAssembly, h.absent]
  simp [h.exported, h.away]

/-- What is found in an assembly is a definition of its own, or an exported type leads there. -/
theorem inAssembly_cases {follow : TypeRef → Option Place} {space name key : String} {a : Assembly}
    (h : inAssembly follow space name key a = some x) :
    (∃ f, a.find? space name = some f ∧ x = ⟨key, f⟩) ∨
      ∃ e, a.Forwards space name e ∧ follow e = some x := by
  cases hf : a.find? space name with
  | some f =>
    simp only [inAssembly, hf] at h
    exact .inl ⟨f, rfl, (Option.some.inj h).symm⟩
  | none =>
    cases he : a.findExported? space name with
    | none => simp [inAssembly, hf, he] at h
    | some e =>
      simp only [inAssembly, hf, he] at h
      split at h
      · cases h
      · next haway => exact .inr ⟨e, ⟨hf, he, Bool.eq_false_iff.2 haway⟩, h⟩

/-- A nested type is found if its declaring type is. -/
theorem lookupWithin_nested {n : Nat} {space name : String} {d : TypeRef} {binding : Binding}
    (hy : w.lookupWithin n d = some y) (hx : y.nested? space name = some x) :
    w.lookupWithin n (.mk space name (.nested d) binding) = some x := by
  cases n with
  | zero => cases hy
  | succ n =>
    rw [lookupWithin, lookupStep, lookupScope, Option.bind_eq_some_iff]
    exact ⟨y, hy, hx⟩

/-- What is reached is found by following enough exported types. -/
theorem Reaches.lookup (h : w.Reaches known hops t x) : ∃ n, w.lookupWithin n t = some x := by
  induction h with
  | @own _ space name a _ b f hb hf =>
    refine ⟨1, ?_⟩
    rw [lookupWithin, lookupStep, lookupScope, hb, Option.bind_some, inAssembly, hf]
  | @shortcut _ n space name a _ b e x hb he _ hx =>
    refine ⟨n + 1, ?_⟩
    rw [lookupWithin, lookupStep, lookupScope, hb, Option.bind_some, inAssembly_of_forwards he, hx]
  | @forwarded _ space name a _ b e x hb he _ ih =>
    obtain ⟨n, hx⟩ := ih
    refine ⟨n + 1, ?_⟩
    rw [lookupWithin, lookupStep, lookupScope, hb, Option.bind_some, inAssembly_of_forwards he, hx]
  | nested _ hx ih =>
    obtain ⟨n, hy⟩ := ih
    exact ⟨n, lookupWithin_nested hy hx⟩

/-- One definition is reached, whatever the shortcuts are. -/
theorem Reaches.unique {hops' : Nat} (hx : w.Reaches known hops t x)
    (hy : w.Reaches known' hops' t y) : x = y := by
  obtain ⟨n, hx⟩ := hx.lookup
  obtain ⟨m, hy⟩ := hy.lookup
  exact lookupWithin_unique hx hy

mutual

theorem reaches_of_lookupStep {follow : TypeRef → Option Place}
    (hfollow : ∀ e x, follow e = some x → w.Reaches known hops e x) : (t : TypeRef) → (x : Place) →
    w.lookupStep follow t = some x → w.Reaches known (hops + 1) t x
  | .mk space name scope binding, x, hx => reaches_of_lookupScope hfollow space name binding scope x hx

theorem reaches_of_lookupScope {follow : TypeRef → Option Place}
    (hfollow : ∀ e x, follow e = some x → w.Reaches known hops e x) (space name : String)
    (binding : Binding) : (s : Scope) → (x : Place) → w.lookupScope follow space name s = some x →
    w.Reaches known (hops + 1) (.mk space name s binding) x
  | .assembly a, x, hx => by
    obtain ⟨b, hb, hx⟩ := Option.bind_eq_some_iff.1 hx
    rcases inAssembly_cases hx with ⟨f, hf, rfl⟩ | ⟨e, he, hx⟩
    · exact .own hb hf
    · exact .forwarded hb he (hfollow e x hx)
  | .nested d, x, hx => by
    obtain ⟨y, hy, hx⟩ := Option.bind_eq_some_iff.1 hx
    exact .nested (reaches_of_lookupStep hfollow d y hy) hx

end

/-- What is found without shortcuts is reached with them. -/
theorem reaches_of_lookupWithin (hx : w.lookupWithin hops t = some x) : w.Reaches known hops t x := by
  induction hops generalizing t x with
  | zero => cases hx
  | succ hops ih => exact reaches_of_lookupStep (fun e y hy => ih hy) t x hx

end World

end ApiEvolution
