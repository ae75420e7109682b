import ApiEvolution.Identity

/-!
# Fingerprints

What a hash of a type, a signature or a member is computed from: a list of atoms. A hash function
is any function on such lists, so everything said about fingerprints holds of every hash. Only what
every way of being the same compares enters a fingerprint: namespaces and names up to the outermost
declaring type, the shape of a signature, and kind and arities of a member.
-/

namespace ApiEvolution

/-- One value that is fed to a hash function. -/
inductive Atom where
  | text (s : String)
  | number (n : Nat)
deriving DecidableEq, Repr

/-- The values fed to a hash function, in order. -/
abbrev Fingerprint := List Atom

/-- A type is known by its path. -/
def TypeRef.fingerprint (t : TypeRef) : Fingerprint :=
  t.path.flatMap fun step => [.text step.1, .text step.2]

mutual

/-- A signature is known by its shape and the paths of the types in it. -/
def Signature.fingerprint : Signature → Fingerprint
  | .named t => .number 0 :: t.fingerprint
  | .generic t arguments =>
    .number 1 :: t.fingerprint ++ .number arguments.length :: Signature.fingerprintOf arguments
  | .typeParameter i => [.number 2, .number i]
  | .methodParameter i => [.number 3, .number i]
  | .array s => .number 4 :: s.fingerprint
  | .byReference s => .number 5 :: s.fingerprint
  | .pointer s => .number 6 :: s.fingerprint

def Signature.fingerprintOf : List Signature → Fingerprint
  | [] => []
  | s :: rest => s.fingerprint ++ Signature.fingerprintOf rest

end

/-- The kind, and for a method how many generic parameters and parameters it has. -/
def MemberKind.fingerprint : MemberKind → Fingerprint
  | .method m =>
    [.number 0, .number m.genericParameters.length, .number m.parameters.length]
  | .field _ => [.number 1]
  | .property _ => [.number 2]
  | .event _ => [.number 3]

/-- A member is known by its name, its declaring type and its kind. -/
def Member.fingerprint (m : Member) : Fingerprint :=
  .text m.name :: m.declaringType.fingerprint ++ m.kind.fingerprint

/-- A hash function on fingerprints. -/
abbrev HashFunction := Fingerprint → UInt64

/-- Mixes the hashes of the atoms from the left. -/
def HashFunction.mixing : HashFunction := fun atoms =>
  atoms.foldl (fun h a =>
    match a with
    | .text s => mixHash h (hash s)
    | .number n => mixHash h (hash n)) 7

end ApiEvolution
