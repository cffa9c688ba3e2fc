import LazyConfig.Name

/-! Resolved types: a growing graph in which recursive aliases are circles through alias slots. -/

namespace LazyConfig

/-- The position of a node in its graph. -/
abbrev TypeId := Nat

/-- A resolved type whose parts are given by position. -/
inductive TypeNode
  | num | str | bool
  /-- Accepts any value. -/
  | dyn
  | list (elem : TypeId)
  /-- Exactly these fields, in the order of their declaration. -/
  | record (fields : List (Name × TypeId))
  /-- Any fields, all of one type. -/
  | dict (elem : TypeId)
  | fn (param result : TypeId)
  | forAll (var : Name) (body : TypeId)
  /-- A type variable, which stands for any type. -/
  | var (name : Name)
  /-- An alias, with its definition once that is known. -/
  | aliasSlot (name : Name) (target : Option TypeId)
  deriving DecidableEq, Inhabited

namespace TypeNode

/-- The nodes that a constructor is built from. -/
def parts : TypeNode → List TypeId
  | list elem | dict elem => [elem]
  | record fields => fields.map Prod.snd
  | fn param result => [param, result]
  | forAll _ body => [body]
  | _ => []

/-- All nodes that a node refers to, alias definitions included. -/
def links : TypeNode → List TypeId
  | aliasSlot _ target => target.toList
  | node => node.parts

end TypeNode

/-- All resolved types, in the order of their creation. -/
structure TypeGraph where
  nodes : Array TypeNode := #[]
  deriving Inhabited

namespace TypeGraph

/-- The number of nodes. -/
def size (graph : TypeGraph) : Nat :=
  graph.nodes.size

/-- The node at a position. -/
def node (graph : TypeGraph) (id : TypeId) : TypeNode :=
  graph.nodes[id]?.getD .dyn

/-- Adds a node. -/
def push (graph : TypeGraph) (node : TypeNode) : TypeId × TypeGraph :=
  (graph.nodes.size, ⟨graph.nodes.push node⟩)

/-- Gives an alias slot its definition; other nodes stay as they are. -/
def define (graph : TypeGraph) (slot target : TypeId) : TypeGraph :=
  match graph.node slot with
  | .aliasSlot name _ => ⟨graph.nodes.setIfInBounds slot (.aliasSlot name (some target))⟩
  | _ => graph

/-- Follows at most a given number of defined aliases. -/
def followSteps (graph : TypeGraph) : Nat → TypeId → TypeId
  | 0, id => id
  | steps + 1, id =>
    match graph.node id with
    | .aliasSlot _ (some target) => followSteps graph steps target
    | _ => id

/-- The first node that is not a defined alias. -/
def follow (graph : TypeGraph) (id : TypeId) : TypeId :=
  -- A chain that passes more aliases than there are nodes never ends.
  graph.followSteps (graph.size + 1) id

/-- Collects what can be reached from the pending nodes, newest first, besides what is known. -/
def collect (graph : TypeGraph) : Nat → List TypeId → List TypeId → List TypeId
  | 0, _, known => known
  | _ + 1, [], known => known
  | fuel + 1, id :: pending, known =>
    if known.contains id then collect graph fuel pending known
    else collect graph fuel ((graph.node id).links ++ pending) (id :: known)

/-- The nodes that can be reached from some nodes, in increasing order. -/
def reachable (graph : TypeGraph) (roots : List TypeId) : List TypeId :=
  -- Each root and each link is taken up at most once.
  let links := graph.nodes.foldl (fun total node => total + node.links.length) 0
  (graph.collect (roots.length + links + 1) roots []).mergeSort

end TypeGraph

end LazyConfig
