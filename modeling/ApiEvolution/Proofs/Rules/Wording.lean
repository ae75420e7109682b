import ApiEvolution.Baseline.Basic
import ApiEvolution.Proofs.Text.Lines

/-!
# The words of a difference

A suppression knows a difference by its kind of change, its tag and its message. The tag tells the
kind of difference, and in the message every name stands between apostrophes; so names that have no
apostrophe of their own can be read off, one after the other from the left (`quoted_inj`), and what
is behind the last one tells the rest. Differences with such names that a suppression cannot tell
apart are the same (`Suppression.covers_ofDifference_iff`).
-/

namespace ApiEvolution

/-! ## Names in quotes -/

/-- The name has no apostrophe. -/
def Unquoted (name : String) : Prop :=
  '\'' ∉ name.toList

/-- The text begins with the apostrophe that ends a name. -/
def EndsName (text : String) : Prop :=
  text.toList.head? = some '\''

instance (name : String) : Decidable (Unquoted name) :=
  inferInstanceAs (Decidable ('\'' ∉ name.toList))

instance (text : String) : Decidable (EndsName text) :=
  inferInstanceAs (Decidable (text.toList.head? = some '\''))

theorem EndsName.append {text : String} (h : EndsName text) (rest : String) :
    EndsName (text ++ rest) := by
  rw [EndsName, String.toList_append, List.head?_append, h, Option.some_or]

/-- A name ends where the first apostrophe is. -/
theorem quoted_inj {a b x y : String} (ha : Unquoted a) (hb : Unquoted b) (hx : EndsName x)
    (hy : EndsName y) (h : a ++ x = b ++ y) : a = b ∧ x = y := by
  obtain ⟨s, hs⟩ := List.head?_eq_some_iff.1 hx
  obtain ⟨t, ht⟩ := List.head?_eq_some_iff.1 hy
  have hlists : a.toList ++ '\'' :: s = b.toList ++ '\'' :: t := by
    rw [← hs, ← ht, ← String.toList_append, ← String.toList_append, h]
  have hpieces := congrArg (Text.pieces '\'') hlists
  rw [Text.pieces_append, Text.pieces_append, Text.pieces_of_not_mem ha,
    Text.pieces_of_not_mem hb] at hpieces
  have hnames : a = b := String.toList_inj.1 (List.cons.inj hpieces).1
  rw [hnames] at h
  exact ⟨hnames, (String.append_right_inj _).1 h⟩

/-! ## Differences -/

namespace Difference

/-- The names that stand in the message. -/
def names : Difference → List String
  | sealing typeName _ => [typeName]
  | constraint _ owner parameter text => [owner, parameter, text]
  | variance _ owner parameter _ _ => [owner, parameter]

/-- No name has an apostrophe. -/
def Plain (d : Difference) : Prop :=
  ∀ name ∈ d.names, Unquoted name

instance : DecidablePred Plain := fun d =>
  inferInstanceAs (Decidable (∀ name ∈ d.names, Unquoted name))

/-- What the message of a sealed type says behind the name of the type. -/
def sealingVerdict (declared : Bool) : String :=
  if declared then "' has the sealed modifier on right but not on left"
  else "' is sealed because it has no visible constructor on right but it does on left"

/-- What the message of a changed variance says behind the last name. -/
def varianceVerdict (before after : Variance) : String :=
  "' from " ++ before.render ++ " to " ++ after.render

-- The equations that Lean derives for `message` are slow to come by; a `change` says what is meant.
theorem message_sealing (typeName : String) (declared : Bool) :
    (sealing typeName declared).message = "Type '" ++ (typeName ++ sealingVerdict declared) := by
  cases declared with
  | true =>
    change "Type '" ++ typeName ++ sealingVerdict true = _
    rw [String.append_assoc]
  | false =>
    change "Type '" ++ typeName ++ sealingVerdict false = _
    rw [String.append_assoc]

theorem message_constraint (change : Change) (owner parameter text : String) :
    (constraint change owner parameter text).message =
      "Cannot " ++ (if change = .added then "add" else "remove") ++ " constraint '" ++
        (text ++ ("' on type parameter '" ++ (parameter ++ ("' of '" ++ (owner ++ "'"))))) := by
  change "Cannot " ++ (if change = .added then "add" else "remove") ++ " constraint '" ++ text ++
    "' on type parameter '" ++ parameter ++ "' of '" ++ owner ++ "'" = _
  simp only [String.append_assoc]

theorem message_variance (change : Change) (owner parameter : String) (before after : Variance) :
    (variance change owner parameter before after).message =
      "Cannot change variance of type parameter '" ++
        (parameter ++ ("' on '" ++ (owner ++ varianceVerdict before after))) := by
  change "Cannot change variance of type parameter '" ++ parameter ++ "' on '" ++ owner ++
    "' from " ++ before.render ++ " to " ++ after.render = _
  simp only [varianceVerdict, String.append_assoc]

theorem sealingVerdict_inj {a b : Bool} (h : sealingVerdict a = sealingVerdict b) : a = b := by
  cases a <;> cases b <;> simp_all [sealingVerdict]

theorem varianceVerdict_inj {a b c d : Variance} (h : varianceVerdict a b = varianceVerdict c d) :
    a = c ∧ b = d := by
  revert h
  cases a <;> cases b <;> cases c <;> cases d <;> simp [varianceVerdict, Variance.render]

theorem endsName_sealingVerdict (declared : Bool) : EndsName (sealingVerdict declared) := by
  cases declared <;> decide +kernel

theorem endsName_varianceVerdict (before after : Variance) :
    EndsName (varianceVerdict before after) := by
  have hfrom : EndsName "' from " := by decide
  exact ((hfrom.append _).append _).append _

theorem kind_eq_of_tag_eq {d e : Difference} (h : d.tag = e.tag) : d.kind = e.kind :=
  (String.append_right_inj _).1 ((String.append_left_inj "Difference").1 h)

theorem eq_of_message_sealing {s t : String} {a b : Bool} (hs : (sealing s a).Plain)
    (ht : (sealing t b).Plain) (h : (sealing s a).message = (sealing t b).message) :
    sealing s a = sealing t b := by
  rw [message_sealing, message_sealing, String.append_right_inj] at h
  obtain ⟨rfl, hverdict⟩ := quoted_inj (hs s List.mem_cons_self) (ht t List.mem_cons_self)
    (endsName_sealingVerdict a) (endsName_sealingVerdict b) h
  rw [sealingVerdict_inj hverdict]

theorem eq_of_message_constraint {c : Change} {owner owner' parameter parameter' text text' : String}
    (hplain : (constraint c owner parameter text).Plain)
    (hplain' : (constraint c owner' parameter' text').Plain)
    (h : (constraint c owner parameter text).message =
      (constraint c owner' parameter' text').message) :
    constraint c owner parameter text = constraint c owner' parameter' text' := by
  simp only [Plain, names, List.forall_mem_cons] at hplain hplain'
  obtain ⟨howner, hparameter, htext, -⟩ := hplain
  obtain ⟨howner', hparameter', htext', -⟩ := hplain'
  have hon : EndsName "' on type parameter '" := by decide +kernel
  have hof : EndsName "' of '" := by decide
  have hend : EndsName "'" := by decide
  rw [message_constraint, message_constraint, String.append_right_inj] at h
  obtain ⟨rfl, hrest⟩ := quoted_inj htext htext' (hon.append _) (hon.append _) h
  rw [String.append_right_inj] at hrest
  obtain ⟨rfl, hlast⟩ := quoted_inj hparameter hparameter' (hof.append _) (hof.append _) hrest
  rw [String.append_right_inj] at hlast
  obtain ⟨rfl, -⟩ := quoted_inj howner howner' hend hend hlast
  rfl

theorem eq_of_message_variance {c : Change} {owner owner' parameter parameter' : String}
    {before before' after after' : Variance}
    (hplain : (variance c owner parameter before after).Plain)
    (hplain' : (variance c owner' parameter' before' after').Plain)
    (h : (variance c owner parameter before after).message =
      (variance c owner' parameter' before' after').message) :
    variance c owner parameter before after = variance c owner' parameter' before' after' := by
  simp only [Plain, names, List.forall_mem_cons] at hplain hplain'
  obtain ⟨howner, hparameter, -⟩ := hplain
  obtain ⟨howner', hparameter', -⟩ := hplain'
  have hon : EndsName "' on '" := by decide
  rw [message_variance, message_variance, String.append_right_inj] at h
  obtain ⟨rfl, hrest⟩ := quoted_inj hparameter hparameter' (hon.append _) (hon.append _) h
  rw [String.append_right_inj] at hrest
  obtain ⟨rfl, hverdict⟩ := quoted_inj howner howner' (endsName_varianceVerdict before after)
    (endsName_varianceVerdict before' after') hrest
  obtain ⟨rfl, rfl⟩ := varianceVerdict_inj hverdict
  rfl

/-- Kind of change, tag and message leave nothing open. -/
theorem eq_of_message_eq {d e : Difference} (hd : d.Plain) (he : e.Plain)
    (hchange : d.change = e.change) (htag : d.tag = e.tag) (h : d.message = e.message) : d = e := by
  have hkind := kind_eq_of_tag_eq htag
  cases d with
  | sealing typeName declared =>
    cases e with
    | sealing => exact eq_of_message_sealing hd he h
    | _ => simp [kind] at hkind
  | constraint change owner parameter text =>
    cases e with
    | constraint change' owner' parameter' text' =>
      obtain rfl : change = change' := hchange
      exact eq_of_message_constraint hd he h
    | _ => simp [kind] at hkind
  | variance change owner parameter before after =>
    cases e with
    | variance change' owner' parameter' before' after' =>
      obtain rfl : change = change' := hchange
      exact eq_of_message_variance hd he h
    | _ => simp [kind] at hkind

end Difference

/-! ## Suppressions -/

namespace Suppression

theorem covers_ofDifference {d e : Difference} : (ofDifference d).covers e ↔
    d.change = e.change ∧ d.tag = e.tag ∧ d.message = e.message := by
  simp [covers, ofDifference, and_assoc]

/-- A suppression covers the difference that it was written for, and no other one whose names have
no apostrophe. -/
theorem covers_ofDifference_iff {d e : Difference} (hd : d.Plain) (he : e.Plain) :
    ((ofDifference d).covers e ↔
      d.change = e.change ∧ d.tag = e.tag ∧ d.message = e.message) ∧
    ((ofDifference d).covers e ↔ d = e) := by
  refine ⟨covers_ofDifference, fun h => ?_, ?_⟩
  · obtain ⟨hchange, htag, hmessage⟩ := covers_ofDifference.1 h
    exact Difference.eq_of_message_eq hd he hchange htag hmessage
  · rintro rfl
    exact covers_ofDifference.2 ⟨rfl, rfl, rfl⟩

/-- Two variances that differ on one side only, the apostrophes of their wording included. -/
theorem covers_ofDifference_iff_variance :
    let d := Difference.variance .removed "Lib.Source" "T" .covariant .invariant
    let e := Difference.variance .removed "Lib.Source" "T" .covariant .contravariant
    d.Plain ∧ e.Plain ∧ (ofDifference d).covers d ∧ ¬ (ofDifference d).covers e :=
  ⟨by decide, by decide, (covers_ofDifference_iff (by decide) (by decide)).2.2 rfl,
    fun h => absurd ((covers_ofDifference_iff (by decide) (by decide)).2.1 h) (by decide)⟩

/-- With apostrophes in the names two differences may have the same words. -/
example :
    let d := Difference.constraint .added "r" "p' of 'q" "x"
    let e := Difference.constraint .added "q' of 'r" "p" "x"
    (ofDifference d).covers e ∧ d ≠ e := by
  decide +kernel

end Suppression

end ApiEvolution
