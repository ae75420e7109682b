/-!
# Indexed lists with buckets

A list that is only ever extended or changed in place, together with the positions of its entries
sorted into buckets by a hash. `position?` looks into one bucket only; `scan?` is the search through
the whole list that it stands for.
-/

namespace ApiEvolution

/-- Entries in order of insertion, and their positions by hash. -/
structure BucketIndex (α : Type) where
  entries : List α
  buckets : List (UInt64 × List Nat)

namespace BucketIndex

variable {α : Type}

def empty : BucketIndex α := ⟨[], []⟩

/-- The positions with the given hash, in increasing order. -/
def bucket (b : BucketIndex α) (hash : UInt64) : List Nat :=
  (b.buckets.lookup hash).getD []

/-- Adds a position to the end of its bucket. -/
def addPosition (hash : UInt64) (position : Nat) :
    List (UInt64 × List Nat) → List (UInt64 × List Nat)
  | [] => [(hash, [position])]
  | (h, ps) :: rest =>
    if h == hash then (h, ps ++ [position]) :: rest else (h, ps) :: addPosition hash position rest

/-- Adds an entry at the end. -/
def push (b : BucketIndex α) (hash : UInt64) (x : α) : BucketIndex α :=
  ⟨b.entries ++ [x], addPosition hash b.entries.length b.buckets⟩

/-- The first position in the bucket whose entry is looked for. -/
def position? (b : BucketIndex α) (hash : UInt64) (wanted : α → Bool) : Option Nat :=
  (b.bucket hash).find? fun i => b.entries[i]?.any wanted

/-- The first position of all whose entry is looked for. -/
def scan? (b : BucketIndex α) (wanted : α → Bool) : Option Nat :=
  b.entries.findIdx? wanted

/-- Changes the entry at a position. -/
def modify (b : BucketIndex α) (position : Nat) (f : α → α) : BucketIndex α :=
  { b with entries := b.entries.modify position f }

/-- Changes the entry that is looked for, or adds one at the end. -/
def upsert (b : BucketIndex α) (hash : UInt64) (wanted : α → Bool) (change : α → α) (new : α) :
    BucketIndex α :=
  match b.position? hash wanted with
  | some i => b.modify i change
  | none => b.push hash new

/-- Changes every entry. -/
def map (f : α → α) (b : BucketIndex α) : BucketIndex α :=
  { b with entries := b.entries.map f }

/-! ## Laws -/

theorem lookup_addPosition_same (hash : UInt64) (i : Nat) (bs : List (UInt64 × List Nat)) :
    (addPosition hash i bs).lookup hash = some ((bs.lookup hash).getD [] ++ [i]) := by
  induction bs with
  | nil => simp [addPosition]
  | cons b bs ih =>
    obtain ⟨h, ps⟩ := b
    by_cases e : h = hash
    · subst e; simp [addPosition]
    · have e' : (hash == h) = false := by simpa using fun x => e (Eq.symm x)
      simp [addPosition, e, List.lookup_cons, e', ih]

theorem lookup_addPosition_of_ne {hash k : UInt64} (ne : k ≠ hash) (i : Nat)
    (bs : List (UInt64 × List Nat)) : (addPosition hash i bs).lookup k = bs.lookup k := by
  induction bs with
  | nil => simp [addPosition, List.lookup_cons, beq_eq_false_iff_ne.2 ne]
  | cons b bs ih =>
    obtain ⟨h, ps⟩ := b
    by_cases e : h = hash
    · subst e
      simp [addPosition, List.lookup_cons, beq_eq_false_iff_ne.2 ne]
    · simp [addPosition, e, List.lookup_cons, ih]

theorem bucket_push_same (b : BucketIndex α) (hash : UInt64) (x : α) :
    (b.push hash x).bucket hash = b.bucket hash ++ [b.entries.length] := by
  simp [bucket, push, lookup_addPosition_same]

theorem bucket_push_of_ne (b : BucketIndex α) {hash k : UInt64} (ne : k ≠ hash) (x : α) :
    (b.push hash x).bucket k = b.bucket k := by
  simp [bucket, push, lookup_addPosition_of_ne ne]

end BucketIndex

end ApiEvolution
