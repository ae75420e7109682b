import ApiEvolution.Rules.Difference
import ApiEvolution.Text.Order

/-!
# Baselines

A baseline lists differences that were reviewed and accepted: a section for each pair of builds, and
in it one suppression for each accepted difference. A suppression covers the differences that have
its kind of change, its tag and its message.

`subtract` takes from one baseline what another one lists, and tells whether the other one lists
anything besides.
-/

namespace ApiEvolution

/-- An accepted difference; without a tag or a message it covers nothing. -/
structure Suppression where
  change : Change
  typeName : Option String
  message : Option String
deriving DecidableEq, Repr

/-- The accepted differences between two builds. -/
structure Section where
  left : String
  right : String
  suppressions : List Suppression
deriving DecidableEq, Repr

/-- Accepted differences of any number of builds. -/
structure Baseline where
  sections : List Section
deriving DecidableEq, Repr

namespace Suppression

def ofDifference (d : Difference) : Suppression :=
  ⟨d.change, some d.tag, some d.message⟩

/-- The suppression was written for this difference, or for one with the same words. -/
def covers (s : Suppression) (d : Difference) : Bool :=
  s.change == d.change && s.typeName == some d.tag && s.message == some d.message

/-- Kind of change, then tag, then message. -/
def order (s t : Suppression) : Ordering :=
  (Text.orderNat s.change.rank t.change.rank).then <|
    (Text.orderOption s.typeName t.typeName).then (Text.orderOption s.message t.message)

theorem covers_eq (s : Suppression) (d : Difference) : s.covers d = (s == ofDifference d) := by
  cases s
  simp [covers, ofDifference, Bool.beq_eq_decide_eq, Bool.and_assoc]

end Suppression

namespace Section

/-- The section of this pair of builds. -/
def isOf (left right : String) (s : Section) : Bool :=
  s.left == left && s.right == right

/-- The first suppression equal to the given one. -/
def positionOf? (s : Section) (x : Suppression) : Option Nat :=
  s.suppressions.findIdx? (· == x)

/-- The first suppression that covers the difference. -/
def positionCovering? (s : Section) (d : Difference) : Option Nat :=
  s.suppressions.findIdx? (·.covers d)

theorem isOf_iff {s : Section} {left right : String} :
    s.isOf left right ↔ s.left = left ∧ s.right = right := by
  simp [isOf]

theorem isOf_self (s : Section) : s.isOf s.left s.right :=
  isOf_iff.2 ⟨rfl, rfl⟩

theorem isOf_comm {s t : Section} : s.isOf t.left t.right ↔ t.isOf s.left s.right := by
  rw [isOf_iff, isOf_iff]
  exact and_congr eq_comm eq_comm

theorem positionOf?_eq_some_iff {s : Section} {x : Suppression} {i : Nat} :
    s.positionOf? x = some i ↔
      s.suppressions[i]? = some x ∧ ∀ j < i, s.suppressions[j]? ≠ some x := by
  simp only [positionOf?, List.findIdx?_eq_some_iff_getElem, List.getElem?_eq_some_iff, beq_iff_eq,
    ne_eq]
  constructor
  · rintro ⟨hi, hx, hlt⟩
    exact ⟨⟨hi, hx⟩, fun j hj ⟨_, he⟩ => hlt j hj he⟩
  · rintro ⟨⟨hi, hx⟩, hlt⟩
    exact ⟨hi, hx, fun j hj he => hlt j hj ⟨Nat.lt_trans hj hi, he⟩⟩

theorem isNone_positionOf? {s : Section} {x : Suppression} :
    (s.positionOf? x).isNone = decide (x ∉ s.suppressions) := by
  rw [Bool.eq_iff_iff, Option.isNone_iff_eq_none, decide_eq_true_iff, positionOf?,
    List.findIdx?_eq_none_iff]
  simp only [beq_eq_false_iff_ne, ne_eq]
  exact ⟨fun h hx => h x hx rfl, fun h y hy e => h (e ▸ hy)⟩

/-- Nothing is listed twice exactly if each suppression is found at its own place. -/
theorem nodup_iff {s : Section} : s.suppressions.Nodup ↔
    ∀ i x, s.suppressions[i]? = some x → s.positionOf? x = some i := by
  rw [List.Nodup, List.pairwise_iff_getElem]
  constructor
  · intro h i x hx
    refine positionOf?_eq_some_iff.2 ⟨hx, fun j hj he => ?_⟩
    obtain ⟨hi, rfl⟩ := List.getElem?_eq_some_iff.1 hx
    obtain ⟨hj', he⟩ := List.getElem?_eq_some_iff.1 he
    exact h j i hj' hi hj he
  · intro h j i hj hi hji he
    have hfirst := h i _ (List.getElem?_eq_getElem hi)
    exact (positionOf?_eq_some_iff.1 hfirst).2 j hji (he ▸ List.getElem?_eq_getElem hj)

/-- Covering a difference is being equal to the suppression that is written for it. -/
theorem positionCovering?_eq (s : Section) (d : Difference) :
    s.positionCovering? d = s.positionOf? (.ofDifference d) := by
  simp only [positionCovering?, positionOf?, Suppression.covers_eq]

/-- Left name, then right name. -/
def order (s t : Section) : Ordering :=
  Text.orderPair (s.left, s.right) (t.left, t.right)

/-- The suppressions in their order. -/
def sorted (s : Section) : Section :=
  { s with suppressions := s.suppressions.mergeSort fun x y => (x.order y).isLE }

end Section

namespace Baseline

def empty : Baseline := ⟨[]⟩

/-- Nothing is accepted, whatever sections there are. -/
def isEmpty (b : Baseline) : Bool :=
  b.sections.all (·.suppressions.isEmpty)

/-- How many suppressions there are. -/
def count (b : Baseline) : Nat :=
  (b.sections.flatMap (·.suppressions)).length

/-- The first section of a pair of builds. -/
def section? (b : Baseline) (left right : String) : Option Section :=
  b.sections.find? (Section.isOf left right)

/-- Adds a section that accepts the given differences, if there are any. -/
def accept (b : Baseline) (left right : String) (ds : List Difference) : Baseline :=
  match ds with
  | [] => b
  | ds => ⟨b.sections ++ [⟨left, right, ds.map Suppression.ofDifference⟩]⟩

/-- The suppressions in order within each section, and the sections in order of their names;
sections of one pair of builds stay in their order. -/
def sorted (b : Baseline) : Baseline :=
  ⟨(b.sections.mergeSort fun s t => (s.order t).isLE).map Section.sorted⟩

/-- The baseline that accepts exactly the given differences. -/
def ofDifferences (found : List (String × String × List Difference)) : Baseline :=
  (found.foldl (fun b f => b.accept f.1 f.2.1 f.2.2) empty).sorted

/-! ## Subtraction -/

/-- The first section of the same pair of builds, and its position. -/
def counterpart? (other : Baseline) (s : Section) : Option (Nat × Section) :=
  (other.sections.zipIdx.find? fun t => t.1.isOf s.left s.right).map fun t => (t.2, t.1)

/-- What a section lists and its counterpart does not. -/
def sectionMinus (s : Section) (other : Baseline) : Section :=
  match other.counterpart? s with
  | none => s
  | some (_, t) =>
    { s with suppressions := s.suppressions.filter fun x => (t.positionOf? x).isNone }

/-- The places of the suppressions that the suppressions of a section are found at. -/
def usedBy (s : Section) (other : Baseline) : List (Nat × Nat) :=
  match other.counterpart? s with
  | none => []
  | some (i, t) => s.suppressions.filterMap fun x => (t.positionOf? x).map fun j => (i, j)

/-- Every place of a suppression. -/
def places (b : Baseline) : List (Nat × Nat) :=
  b.sections.zipIdx.flatMap fun s => (List.range s.1.suppressions.length).map fun j => (s.2, j)

/-- What `b` lists and `other` does not, and whether `other` has a suppression that nothing in `b`
was found at. Sections with nothing left are dropped. -/
def subtract (b other : Baseline) : Baseline × Bool :=
  let rest := (b.sections.map (sectionMinus · other)).filter fun s => !s.suppressions.isEmpty
  let used := b.sections.flatMap (usedBy · other)
  (⟨rest⟩, other.places.any fun p => !used.contains p)

end Baseline

end ApiEvolution
