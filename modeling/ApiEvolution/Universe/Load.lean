import ApiEvolution.Universe.Resolve

/-!
# Loading assemblies

A primary assembly is read from a path; all others are read on demand, when a reference names them,
from the first reference path with that file name. An assembly is remembered before its own
references are bound, so assemblies may refer to each other in a circle.

Each demand that leads to another demand remembers one more simple name that some reference path
bears; so the number of reference paths bounds how deep demands are nested, and
`resolveAssemblyWithin` counts it down.
-/

namespace ApiEvolution

namespace Universe

/-- Finds an assembly by its name, reading it if the name is new; demands are nested at most `depth`
deep. -/
def resolveAssemblyWithin (read : Reader) : Nat → AssemblyResolver
  | depth, name => do
    let u ← get
    match u.remembered? (key name) with
    | some entry => pure (entry.bind u.assembly?)
    | none =>
      match u.referencePath? name with
      | none =>
        modify fun u => (u.report ⟨.assemblyNotFound name, none⟩).remember (key name) none
        pure none
      | some path =>
        match depth with
        | 0 => pure none
        | depth + 1 =>
          modify (noteRead path)
          match read path with
          | .error e =>
            modify fun u =>
              (u.report ⟨.assemblyUnreadable name path e, none⟩).remember (key name) none
            pure none
          | .ok a =>
            let l ← modifyGet (takeIn (key name) a)
            some <$> bindAssembly (resolveAssemblyWithin read depth) l

/-- Finds an assembly by its name. -/
def resolveAssembly (read : Reader) : AssemblyResolver := fun name => do
  resolveAssemblyWithin read (← get).referencePaths.length name

/-- Finds the definition of a type reference. -/
def resolveType (read : Reader) (t : TypeRef) : UniverseM (Option Definition) :=
  resolveTypeBy (resolveAssembly read) t

/-- Reads the assembly at a path, binds its references and keeps it. From now on its simple name
means this assembly. -/
def loadPrimary (read : Reader) (path : Path) : UniverseM (Except LoadError Loaded) := do
  modify (noteRead path)
  match read path with
  | .error e => pure (.error e)
  | .ok a =>
    let l ← modifyGet (takeIn (key a.name) a)
    modify fun u => { u with primaries := u.primaries ++ [l.id] }.collect
    .ok <$> bindAssembly (resolveAssembly read) l

end Universe

end ApiEvolution
