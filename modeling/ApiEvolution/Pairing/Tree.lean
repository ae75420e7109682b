import ApiEvolution.Pairing.BucketIndex
import ApiEvolution.Pairing.Pair
import ApiEvolution.Pairing.Selection
import ApiEvolution.Universe.Basic

/-!
# Pairing the surfaces of two builds

A `SurfaceTree` has a node for every type that takes part, in order of first occurrence, and every
such node one for every member that takes part. Each node is a `Pair`: declarations that are the
same share a node.

An assembly enters the tree in three steps: its references are bound as far as they are unbound
(`bindLocally`), the definitions it brings are listed (`Selection.registered`), and each of them is
put into the node of its declaration (`SurfaceTree.register`).
-/

namespace ApiEvolution

/-! ## The definitions that an assembly brings -/

namespace Selection

mutual

/-- The type and the types nested in it that take part, each before its own nested types. -/
def expand (s : Selection) (id : DefinitionId) : TypeDefinition → List Definition
  | ⟨d, f, g, m, nested⟩ => ⟨id, ⟨d, f, g, m, nested⟩⟩ :: s.expandFrom id 0 nested

/-- The nested types from the given position on. -/
def expandFrom (s : Selection) (id : DefinitionId) (position : Nat) :
    List TypeDefinition → List Definition
  | [] => []
  | t :: rest =>
    let nested : DefinitionId := { id with position := id.position ++ [position] }
    (if s.includesType t then s.expand nested t else []) ++ s.expandFrom id (position + 1) rest

end

/-- The definition and its nested types, if it takes part. -/
def admitted (s : Selection) (d : Definition) : List Definition :=
  if s.includesType d.type then s.expand d.id d.type else []

/-- The definition an exported type is bound to, as long as it is kept. -/
def forwarded? (definitions : DefinitionId → Option TypeDefinition) (t : TypeRef) :
    Option Definition :=
  t.target?.bind fun id => (definitions id).map fun type => ⟨id, type⟩

/-- The definitions of the modules, whose first type has the given position: those of the types,
then those that the exported types are bound to. -/
def registeredFrom (s : Selection) (definitions : DefinitionId → Option TypeDefinition)
    (id : AssemblyId) : Nat → List Module → List Definition
  | _, [] => []
  | position, m :: rest =>
    (m.types.zipIdx position).flatMap (fun t => s.admitted ⟨⟨id, [t.2]⟩, t.1⟩) ++
      (m.exported.filterMap (forwarded? definitions)).flatMap s.admitted ++
      s.registeredFrom definitions id (position + m.types.length) rest

/-- The definitions that an assembly brings, in the order in which they are paired. -/
def registered (s : Selection) (definitions : DefinitionId → Option TypeDefinition) (l : Loaded) :
    List Definition :=
  s.registeredFrom definitions l.id 0 l.assembly.modules

end Selection

/-! ## Binding within an assembly -/

/-- What is noticed while the references of an assembly are gone through: the definitions they are
bound to, and the references that lead nowhere. -/
structure Noticed where
  retained : List DefinitionId := []
  diagnostics : List Diagnostic := []

/-- Binds an unbound reference to a definition of the assembly itself. -/
def bindLocally (l : Loaded) (t : TypeRef) : StateM Noticed TypeRef := fun n =>
  let reported (f : Finding) : Noticed :=
    { n with diagnostics := n.diagnostics ++ [⟨f, some l.assembly.name.name⟩] }
  match t.binding with
  | .definition | .unresolved => (t, n)
  | .dropped => (t, reported (.definitionDropped t.fullName))
  | .resolved id _ => (t, { n with retained := n.retained ++ [id] })
  | .unbound =>
    match l.assembly.locate t with
    | some f =>
      let id : DefinitionId := ⟨l.id, f.position⟩
      (t.withBinding (.resolved id f.type.descriptor), { n with retained := n.retained ++ [id] })
    | none => (t.withBinding .unresolved, reported (.typeUnresolved t.fullName))

/-- Goes through the references of all types of an assembly. -/
def Loaded.bindLocally (l : Loaded) : StateM Noticed Loaded := do
  let modules ← l.assembly.modules.mapM fun m => do
    return { m with types := ← TypeDefinition.traverseAll (ApiEvolution.bindLocally l) m.types }
  return { l with assembly := { l.assembly with modules } }

/-- One diagnostic for each exported type that is bound to no definition. -/
def Loaded.brokenExports (definitions : DefinitionId → Option TypeDefinition) (l : Loaded) :
    List Diagnostic :=
  (l.assembly.exported.filter fun t => (Selection.forwarded? definitions t).isNone).map fun t =>
    ⟨.exportUnresolved t.fullName, some l.assembly.name.name⟩

/-! ## The tree -/

/-- A member of the old build, of the new one, or of both. -/
abbrev MemberNode := Pair Member

/-- A type of the old build, of the new one, or of both, and its members. -/
structure TypeNode where
  types : Pair Definition
  members : BucketIndex MemberNode

/-- The paired surfaces. `retained` lists the definitions that references of the paired assemblies
are bound to. -/
structure SurfaceTree where
  selection : Selection
  assemblies : Pair Loaded
  nodes : BucketIndex TypeNode
  retained : List DefinitionId
  diagnostics : List Diagnostic

namespace TypeNode

def fullName (n : TypeNode) : String :=
  n.types.representative.type.fullName

/-- The definitions on both sides. -/
def both? (n : TypeNode) : Option (TypeDefinition × TypeDefinition) :=
  match n.types with
  | .both l r => some (l.type, r.type)
  | _ => none

/-- Puts a member into the node of its declaration. -/
def addMember (s : Selection) (side : Side) (members : BucketIndex MemberNode) (m : Member) :
    BucketIndex MemberNode :=
  members.upsert (s.hash m.fingerprint) (fun p => s.comparer.sameMember p.representative m)
    (·.set m side) (.single m side)

/-- Puts the members of a type that take part into their nodes. -/
def addMembers (s : Selection) (side : Side) (t : TypeDefinition)
    (members : BucketIndex MemberNode) : BucketIndex MemberNode :=
  (t.members.filter s.includesMember).foldl (addMember s side) members

/-- The node of a declaration that has none yet. -/
def single (s : Selection) (side : Side) (d : Definition) : TypeNode :=
  ⟨.single d side, addMembers s side d.type .empty⟩

/-- Puts a definition on a side, in place of what was there; members stay. -/
def set (s : Selection) (side : Side) (d : Definition) (n : TypeNode) : TypeNode :=
  ⟨n.types.set d side, addMembers s side d.type n.members⟩

/-- The first member node whose declaration has this name. -/
def findMember? (n : TypeNode) (name : String) : Option MemberNode :=
  n.members.entries.find? (·.representative.name == name)

end TypeNode

namespace SurfaceTree

/-- Puts a definition into the node of its declaration. -/
def register (s : Selection) (side : Side) (nodes : BucketIndex TypeNode) (d : Definition) :
    BucketIndex TypeNode :=
  nodes.upsert (s.hash d.type.descriptor.fingerprint)
    (fun n => s.comparer.sameType n.types.representative.type.descriptor d.type.descriptor)
    (TypeNode.set s side d) (.single s side d)

/-- Pairs what an assembly brings with what is there. `definitions` are the definitions that the
exported types of the assembly can be bound to. -/
def enter (definitions : DefinitionId → Option TypeDefinition) (l : Loaded) (side : Side)
    (tree : SurfaceTree) : SurfaceTree :=
  let (l, noticed) := l.bindLocally.run {}
  let s := tree.selection
  { tree with
    assemblies := tree.assemblies.set l side
    nodes := (s.registered definitions l).foldl (register s side) tree.nodes
    retained := tree.retained ++ noticed.retained
    diagnostics := tree.diagnostics ++ noticed.diagnostics ++ l.brokenExports definitions }

/-- The tree of one assembly. -/
def single (s : Selection) (definitions : DefinitionId → Option TypeDefinition) (l : Loaded)
    (side : Side) : SurfaceTree :=
  enter definitions l side ⟨s, .single l side, .empty, [], []⟩

/-- The tree of an old and a new build. -/
def ofBuilds (s : Selection) (definitions : DefinitionId → Option TypeDefinition)
    (left right : Loaded) : SurfaceTree :=
  (single s definitions left .left).enter definitions right .right

/-- The type nodes in order of first occurrence. -/
def types (tree : SurfaceTree) : List TypeNode :=
  tree.nodes.entries

/-- The first type node with this full name. -/
def find? (tree : SurfaceTree) (fullName : String) : Option TypeNode :=
  tree.types.find? (·.fullName == fullName)

/-! ## What a tree keeps -/

/-- `id` is the definition `held` or nested in it. -/
def isWithin (held id : DefinitionId) : Bool :=
  held.assembly == id.assembly && held.position.isPrefixOf id.position

/-- The tree keeps the paired assemblies, the definitions in its nodes, and those that references of
the paired assemblies are bound to. -/
def keeps (tree : SurfaceTree) (id : DefinitionId) : Bool :=
  tree.assemblies.toList.any (·.id == id.assembly) ||
    tree.retained.any (isWithin · id) ||
    tree.types.any fun n => n.types.toList.any fun d => isWithin d.id id

/-- Gives up the definitions that are no longer kept. -/
def release (kept : DefinitionId → Bool) (tree : SurfaceTree) : SurfaceTree :=
  { tree with
    assemblies := tree.assemblies.map fun l => { l with assembly := l.assembly.release kept }
    nodes := tree.nodes.map fun n =>
      ⟨n.types.map fun d => { d with type := d.type.release kept },
        n.members.map fun p => p.map (·.map (TypeRef.release kept))⟩ }

/-- What is left of the tree when nothing but the tree itself keeps definitions. -/
def alone (tree : SurfaceTree) : SurfaceTree :=
  tree.release tree.keeps

end SurfaceTree

end ApiEvolution
