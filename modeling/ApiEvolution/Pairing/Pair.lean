/-!
# Pairs of an old and a new element

The old build is the left side, the new one the right side. A `Pair` has at least one of them: only
the left one if the element is gone, only the right one if it is new. `get_set` and
`get_set_opposite` say what setting a side does.
-/

namespace ApiEvolution

/-- The old or the new build. -/
inductive Side where
  | left
  | right
deriving DecidableEq, Repr

namespace Side

def all : List Side := [left, right]

def render : Side → String
  | left => "Left"
  | right => "Right"

def opposite : Side → Side
  | left => right
  | right => left

theorem mem_all (s : Side) : s ∈ all := by
  cases s <;> decide

theorem opposite_opposite (s : Side) : s.opposite.opposite = s := by
  cases s <;> rfl

end Side

/-- An element on one side or on both. -/
inductive Pair (α : Type) where
  | leftOnly (l : α)
  | rightOnly (r : α)
  | both (l r : α)
deriving DecidableEq, Repr

namespace Pair

variable {α β : Type}

/-- The pair that has nothing but `x`. -/
def single (x : α) : Side → Pair α
  | .left => leftOnly x
  | .right => rightOnly x

/-- Puts `x` on a side, in place of what was there. -/
def set (p : Pair α) (x : α) (s : Side) : Pair α :=
  match p, s with
  | leftOnly _, .left => leftOnly x
  | leftOnly l, .right => both l x
  | rightOnly _, .right => rightOnly x
  | rightOnly r, .left => both x r
  | both _ r, .left => both x r
  | both l _, .right => both l x

def left? : Pair α → Option α
  | leftOnly l | both l _ => some l
  | rightOnly _ => none

def right? : Pair α → Option α
  | rightOnly r | both _ r => some r
  | leftOnly _ => none

def get? (p : Pair α) : Side → Option α
  | .left => p.left?
  | .right => p.right?

/-- The element that stands for the pair: the left one if there is one. -/
def representative : Pair α → α
  | leftOnly x | rightOnly x | both x _ => x

/-- The elements, the left one first. -/
def toList : Pair α → List α
  | leftOnly x | rightOnly x => [x]
  | both l r => [l, r]

def map (f : α → β) : Pair α → Pair β
  | leftOnly l => leftOnly (f l)
  | rightOnly r => rightOnly (f r)
  | both l r => both (f l) (f r)

/-- Which sides there are. -/
def state : Pair α → String
  | leftOnly _ => "LeftOnly"
  | rightOnly _ => "RightOnly"
  | both _ _ => "Both"

/-! ## Laws -/

@[simp] theorem get_single (x : α) (s : Side) : (single x s).get? s = some x := by
  cases s <;> rfl

@[simp] theorem get_single_opposite (x : α) (s : Side) : (single x s).get? s.opposite = none := by
  cases s <;> rfl

@[simp] theorem get_set (p : Pair α) (x : α) (s : Side) : (p.set x s).get? s = some x := by
  cases p <;> cases s <;> rfl

@[simp] theorem get_set_opposite (p : Pair α) (x : α) (s : Side) :
    (p.set x s).get? s.opposite = p.get? s.opposite := by
  cases p <;> cases s <;> rfl

theorem exists_get (p : Pair α) : ∃ s, (p.get? s).isSome := by
  cases p
  · exact ⟨.left, rfl⟩
  · exact ⟨.right, rfl⟩
  · exact ⟨.left, rfl⟩

theorem representative_eq (p : Pair α) :
    some p.representative = p.left?.or p.right? := by
  cases p <;> rfl

end Pair

end ApiEvolution
