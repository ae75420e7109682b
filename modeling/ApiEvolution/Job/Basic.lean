import ApiEvolution.Path
import ApiEvolution.Text.Order

/-!
# Jobs

A job names two builds of a library to be compared. A build is an assembly and the assemblies it may
refer to.
-/

namespace ApiEvolution

/-- An assembly file and the files that its references are looked up in. -/
structure Build where
  name : String
  assembly : Path
  references : List Path
deriving DecidableEq, Repr

/-- An old and a new build to be compared. -/
structure Job where
  left : Build
  right : Build
deriving DecidableEq, Repr

namespace Job

/-- Left name, then right name. -/
def order (i j : Job) : Ordering :=
  Text.orderPair (i.left.name, i.right.name) (j.left.name, j.right.name)

/-- Jobs by their names; those with equal names stay in their order. -/
def sorted (jobs : List Job) : List Job :=
  jobs.mergeSort fun i j => (i.order j).isLE

/-- The job compares builds of these names. -/
def isOf (left right : String) (j : Job) : Bool :=
  j.left.name == left && j.right.name == right

theorem isOf_iff {j : Job} {left right : String} :
    j.isOf left right ↔ j.left.name = left ∧ j.right.name = right := by
  simp [isOf]

theorem isOf_comm {i j : Job} :
    i.isOf j.left.name j.right.name ↔ j.isOf i.left.name i.right.name := by
  rw [isOf_iff, isOf_iff]
  exact and_congr eq_comm eq_comm

end Job

end ApiEvolution
