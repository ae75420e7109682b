import ApiEvolution.Universe.Load

/-!
# Sessions of several universes

A session opens universes one after the other and closes them in any order. Questions go to the
universe opened last. The primary assemblies stay available when their universe is closed, but what
they refer to does not.
-/

namespace ApiEvolution

/-- Universes by their context number, those that are open, and the primary assemblies in order. -/
structure Session where
  universes : List Universe
  opened : List Nat
  primaries : List AssemblyId

/-- Something that is done in a session. -/
abbrev SessionM := StateM Session

namespace Session

def empty : Session := ⟨[], [], []⟩

/-- Opens a universe. -/
def openUniverse (referencePaths : List Path) (s : Session) : Session :=
  let context := s.universes.length
  { s with
    universes := s.universes ++ [{ context, referencePaths }]
    opened := s.opened ++ [context] }

/-- Closes the open universe with the given position. -/
def closeUniverse (position : Nat) (s : Session) : Session :=
  match s.opened[position]? with
  | none => s
  | some context =>
    { s with
      universes := s.universes.modify context Universe.close
      opened := s.opened.eraseIdx position }

/-- Asks the universe opened last. -/
def ask {α : Type} (question : UniverseM α) : SessionM (Option α) := fun s =>
  match s.opened.getLast?.bind fun context => s.universes[context]? with
  | none => (none, s)
  | some u =>
    let (answer, v) := question.run u
    (some answer, { s with universes := s.universes.set u.context v })

/-- Notes that an assembly was asked for by its path. -/
def notePrimary (id : AssemblyId) (s : Session) : Session :=
  { s with primaries := s.primaries ++ [id] }

/-- The primary assembly with the given position. -/
def primary? (s : Session) (position : Nat) : Option Assembly :=
  match s.primaries[position]? with
  | none => none
  | some id => (s.universes[id.context]?.bind (·.assembly? id)).map (·.assembly)

end Session

end ApiEvolution
