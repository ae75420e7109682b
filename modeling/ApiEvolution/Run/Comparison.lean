import ApiEvolution.Job.Basic
import ApiEvolution.Rules.Judge
import ApiEvolution.Universe.Load

/-!
# Comparing two builds

One job: both builds are loaded, each in a universe of its own, their surfaces are paired, and the
rules judge the pairs. What other jobs read has no part in it.
-/

namespace ApiEvolution

/-- What a job has found. -/
structure Output where
  differences : List Difference
  diagnostics : List Diagnostic

namespace Build

/-- The universe in which a build is resolved, before anything is read. -/
def newUniverse (context : Nat) (b : Build) : Universe :=
  { context, referencePaths := b.references }

/-- Reads the assembly of a build and binds its references. -/
def load (read : Reader) (context : Nat) (b : Build) : Except LoadError Loaded × Universe :=
  (Universe.loadPrimary read b.assembly).run (b.newUniverse context)

end Build

/-- The definitions of two universes with the contexts zero and one. -/
def definitionsOf (left right : Universe) (id : DefinitionId) : Option TypeDefinition :=
  if id.assembly.context = left.context then left.definition? id else right.definition? id

/-- Pairs the surfaces of two loaded builds and judges them. -/
def compareLoaded (s : Selection) (left right : Loaded × Universe) : Output :=
  let tree := SurfaceTree.ofBuilds s (definitionsOf left.2 right.2) left.1 right.1
  let verdict := tree.judge Rule.all
  ⟨verdict.differences,
    left.2.diagnostics ++ right.2.diagnostics ++ tree.diagnostics ++ verdict.diagnostics⟩

namespace Job

/-- Runs a job: what it found, or why it could not, and the paths that it read in order. -/
def run (read : Reader) (s : Selection) (j : Job) : Except LoadError Output × List Path :=
  match j.left.load read 0 with
  | (.error e, u) => (.error e, u.reads)
  | (.ok left, u) =>
    match j.right.load read 1 with
    | (.error e, v) => (.error e, u.reads ++ v.reads)
    | (.ok right, v) => (.ok (compareLoaded s (left, u) (right, v)), u.reads ++ v.reads)

/-- What a job found, or why it could not. -/
def outcome (read : Reader) (s : Selection) (j : Job) : Except LoadError Output :=
  (j.run read s).1

end Job

end ApiEvolution
