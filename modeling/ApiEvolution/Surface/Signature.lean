import ApiEvolution.Surface.TypeRef

/-!
# Type signatures

A type as it stands in a constraint, a parameter or a result: a named type, an instance of a generic
one, a generic parameter, or an array, reference or pointer. `refs` lists the type references in the
order in which they are read; `map` and `traverse` replace them in that order.
-/

namespace ApiEvolution

/-- A type in use. -/
inductive Signature where
  | named (type : TypeRef)
  /-- an instance of a generic type -/
  | generic (type : TypeRef) (arguments : List Signature)
  /-- generic parameter of the declaring type -/
  | typeParameter (index : Nat)
  /-- generic parameter of the method -/
  | methodParameter (index : Nat)
  /-- array with one dimension and lower bound zero -/
  | array (element : Signature)
  | byReference (element : Signature)
  | pointer (element : Signature)

namespace Signature

mutual

/-- The type references in reading order. -/
def refs : Signature → List TypeRef
  | named t => [t]
  | generic t arguments => t :: refsOf arguments
  | typeParameter _ | methodParameter _ => []
  | array s | byReference s | pointer s => s.refs

def refsOf : List Signature → List TypeRef
  | [] => []
  | s :: rest => s.refs ++ refsOf rest

end

mutual

/-- Replaces every type reference. -/
def map (f : TypeRef → TypeRef) : Signature → Signature
  | named t => named (f t)
  | generic t arguments => generic (f t) (mapAll f arguments)
  | typeParameter i => typeParameter i
  | methodParameter i => methodParameter i
  | array s => array (s.map f)
  | byReference s => byReference (s.map f)
  | pointer s => pointer (s.map f)

def mapAll (f : TypeRef → TypeRef) : List Signature → List Signature
  | [] => []
  | s :: rest => s.map f :: mapAll f rest

end

mutual

/-- Replaces every type reference, with effects in reading order. -/
def traverse {m : Type → Type} [Monad m] (f : TypeRef → m TypeRef) : Signature → m Signature
  | named t => do return named (← f t)
  | generic t arguments => do
    let t ← f t
    return generic t (← traverseAll f arguments)
  | typeParameter i => pure (typeParameter i)
  | methodParameter i => pure (methodParameter i)
  | array s => do return array (← s.traverse f)
  | byReference s => do return byReference (← s.traverse f)
  | pointer s => do return pointer (← s.traverse f)

def traverseAll {m : Type → Type} [Monad m] (f : TypeRef → m TypeRef) :
    List Signature → m (List Signature)
  | [] => pure []
  | s :: rest => do
    let s ← s.traverse f
    return s :: (← traverseAll f rest)

end

/-- The named or generic type at the core has a definition. -/
def isResolved : Signature → Bool
  | named t | generic t _ => t.definition?.isSome
  | typeParameter _ | methodParameter _ => true
  | array s | byReference s | pointer s => s.isResolved

mutual

/-- The written form: `Name<A,B>`, `!0`, `!!0`, and a suffix `[]`, `&` or `*`. -/
def fullName : Signature → String
  | named t => t.fullName
  | generic t arguments => t.fullName ++ "<" ++ Text.joined "," (fullNames arguments) ++ ">"
  | typeParameter i => "!" ++ Text.Decimal.render i
  | methodParameter i => "!!" ++ Text.Decimal.render i
  | array s => s.fullName ++ "[]"
  | byReference s => s.fullName ++ "&"
  | pointer s => s.fullName ++ "*"

def fullNames : List Signature → List String
  | [] => []
  | s :: rest => s.fullName :: fullNames rest

end

/-- A copy without bindings. -/
def detached (s : Signature) : Signature :=
  s.map TypeRef.detached

/-- Gives up the definitions that are no longer kept. -/
def release (kept : DefinitionId → Bool) (s : Signature) : Signature :=
  s.map (TypeRef.release kept)

/-! ## Lists of signatures -/

theorem refsOf_eq (ss : List Signature) : refsOf ss = ss.flatMap refs := by
  induction ss with
  | nil => rfl
  | cons s ss ih => simp [refsOf, ih]

theorem mapAll_eq (f : TypeRef → TypeRef) (ss : List Signature) : mapAll f ss = ss.map (map f) := by
  induction ss with
  | nil => rfl
  | cons s ss ih => simp [mapAll, ih]

theorem fullNames_eq (ss : List Signature) : fullNames ss = ss.map fullName := by
  induction ss with
  | nil => rfl
  | cons s ss ih => simp [fullNames, ih]

end Signature

end ApiEvolution
