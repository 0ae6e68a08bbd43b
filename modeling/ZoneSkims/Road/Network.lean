import ZoneSkims.Coord.Search
import ZoneSkims.Mode
import ZoneSkims.Road.Adjacency

/-!
# Road networks

A network has nodes in the plane and directed links between them. It is drafted node by node and
link by link, and checked once when the draft is complete: every end of a link is a node then, and
the nodes can be searched.

* `NetworkDraft.build`: the network of a draft, or the first link with a stray end.
* `Network.outLinks`, `Network.inLinks`: the links that leave a node or come into it.
* `Network.nearestNode?`: the node nearest to a point.
* `Network.restrictTo`: the network of the links that one mode may use.
-/

namespace ZoneSkims

/-- What a link is like: its length in metres, its speed in free flow in metres per second, its
capacity in vehicles per hour and the modes that may use it. -/
structure LinkTraits (α : Type) where
  length : α
  freeSpeed : α
  capacity : α
  modes : ModeSet

/-- A link for cars with the capacity of a single lane. -/
def LinkTraits.car {α : Type} [Scalar α] (length freeSpeed : α) : LinkTraits α :=
  { length, freeSpeed, capacity := 1800.0, modes := ModeSet.single .car }

/-- A directed link. -/
structure Link (α : Type) extends LinkTraits α where
  source : NodeId
  target : NodeId

/-- The positions of the nodes and the links, in the order of their ids. -/
structure NetworkDraft (α : Type) where
  nodes : Array (Coord α)
  links : Array (Link α)

/-- A network with the links at every node. -/
structure Network (α : Type) extends NetworkDraft α where
  outgoing : Adjacency
  incoming : Adjacency

namespace NetworkDraft

variable {α : Type}

def empty : NetworkDraft α := { nodes := #[], links := #[] }

/-- The draft with one more node, and its id. -/
def addNode (draft : NetworkDraft α) (position : Coord α) : NodeId × NetworkDraft α :=
  (Id.ofIndex draft.nodes.size, { draft with nodes := draft.nodes.push position })

/-- The draft with one more link, and its id. -/
def addLink (draft : NetworkDraft α) (source target : NodeId) (traits : LinkTraits α) :
    LinkId × NetworkDraft α :=
  (Id.ofIndex draft.links.size,
    { draft with links := draft.links.push { traits with source, target } })

/-- The draft with a link in each direction between two nodes, and their ids. -/
def addRoad (draft : NetworkDraft α) (a b : NodeId) (traits : LinkTraits α) :
    (LinkId × LinkId) × NetworkDraft α :=
  let (there, draft) := draft.addLink a b traits
  let (back, draft) := draft.addLink b a traits
  ((there, back), draft)

/-- A link with an end that is no node of the draft. -/
def isStray (draft : NetworkDraft α) (link : Link α) : Bool :=
  draft.nodes.size ≤ link.source.index || draft.nodes.size ≤ link.target.index

/-- The network of a draft whose links all end at its nodes. -/
def build [Scalar α] (draft : NetworkDraft α) : Checked (Network α) :=
  match draft.links.findIdx? draft.isStray with
  | some link => .error (.strayLink link)
  | none => do
    Coord.requireOrder draft.nodes.toList
    let ends (f : Link α → NodeId) : Adjacency :=
      Adjacency.ofEnds draft.nodes.size (draft.links.toList.map f)
    return { draft with outgoing := ends Link.source, incoming := ends Link.target }

end NetworkDraft

namespace Network

variable {α : Type}

/-- The network without nodes. -/
def empty : Network α :=
  { NetworkDraft.empty with outgoing := Adjacency.ofEnds 0 [], incoming := Adjacency.ofEnds 0 [] }

def nodeCount (network : Network α) : Nat := network.nodes.size

def linkCount (network : Network α) : Nat := network.links.size

def isEmpty (network : Network α) : Bool := network.nodes.isEmpty

def contains (network : Network α) (node : NodeId) : Bool :=
  decide (node.index < network.nodeCount)

/-- The link of an id. -/
def link (network : Network α) (id : LinkId) : Checked (Link α) :=
  fetch network.links id.index

/-- The links that leave a node. -/
def outLinks (network : Network α) (node : NodeId) : Checked (List LinkId) :=
  network.outgoing.links node

/-- The links that come into a node. -/
def inLinks (network : Network α) (node : NodeId) : Checked (List LinkId) :=
  network.incoming.links node

/-! ## Points -/

variable [Scalar α]

/-- The node nearest to a point. -/
def nearestNode? (network : Network α) (point : Coord α) : Checked (Option NodeId) := do
  return Id.ofIndex <$> (← Coord.nearest? network.nodes.toList point)

/-- The node nearest to a point, if it is at most `limit` metres away. -/
def nearestNodeWithin? (network : Network α) (point : Coord α) (limit : α) :
    Checked (Option NodeId) := do
  return (← network.nearestNode? point).filter fun node =>
    match network.nodes[node.index]? with
    | some position => decide (position.distance point ≤ limit)
    | none => false

/-! ## Networks of one mode -/

/-- The network with the same nodes and only the links that a mode may use, numbered anew in their
order. -/
def restrictTo (network : Network α) (mode : Mode) : Checked (Network α) :=
  { network.toNetworkDraft with
    links := network.links.filter fun link => link.modes.contains mode : NetworkDraft α }.build

end Network

end ZoneSkims
