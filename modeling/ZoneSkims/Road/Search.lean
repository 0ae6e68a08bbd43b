import ZoneSkims.Road.Frontier
import ZoneSkims.Road.LinkFunction

/-!
# Cheapest paths

A search settles the nodes of a network in the order of their cost from the root. A label holds,
besides the cost, the time of day and the distance at its node, and link functions are evaluated at
the time of the label. A label is replaced only by a strictly cheaper one; what is left of the old
one in the frontier is skipped.

* `RoadSearch.run`: labels in one direction, up to a bound on cost, until a target is settled.
* `RoadSearch.treeFrom`, `RoadSearch.treeTo`: the labels from a source or to a target.
* `RoadSearch.cheapestPath`: the cheapest path between two nodes.
* `PathTree.pathTo?`: the links between the root and a settled node.
-/

namespace ZoneSkims

/-! ## Faults -/

/-- The two link functions of a search. -/
inductive LinkQuantity where
  | travelTime
  | cost
  deriving DecidableEq

def LinkQuantity.label : LinkQuantity → String
  | travelTime => "travel time"
  | cost => "disutility"

inductive RoadError (α : Type) where
  | unknownNode (node : NodeId)
  | notFinite (kind : LinkQuantity) (link : LinkId) (time value : α)
  | negative (kind : LinkQuantity) (link : LinkId) (time value : α)
  /-- A node would become cheaper after it was settled. -/
  | lateDecrease (node : NodeId) (link : LinkId) (settled candidate : α)

def RoadError.message {α : Type} [DecimalText α] : RoadError α → String
  | unknownNode node => s!"{node.name} not found in network"
  | notFinite kind link time value =>
    s!"non-finite {kind.label} {decimal value} on {link.name} at t={decimal time}"
  | negative kind link time value =>
    s!"negative {kind.label} {decimal value} on {link.name} at t={decimal time}"
  | lateDecrease node link settled candidate =>
    s!"settled label of {node.name} would decrease from {decimal settled} to " ++
      s!"{decimal candidate} via {link.name} (negative cycle or engine bug)"

/-! ## Directions -/

/-- A search follows links from the root on, or comes back to the root against them. -/
inductive Direction where
  | forward
  | backward
  deriving DecidableEq

namespace Direction

variable {α : Type}

/-- The links over which the search leaves a node. -/
def links (direction : Direction) (network : Network α) (node : NodeId) : Checked (List LinkId) :=
  match direction with
  | forward => network.outLinks node
  | backward => network.inLinks node

/-- The end of a link at which the search leaves it. -/
def farEnd : Direction → Link α → NodeId
  | forward, link => link.target
  | backward, link => link.source

/-- The end of a link at which the search enters it. -/
def nearEnd : Direction → Link α → NodeId
  | forward, link => link.source
  | backward, link => link.target

/-- The time of day after a link. Backward, time runs back. -/
def after [Scalar α] (direction : Direction) (time travelTime : α) : α :=
  match direction with
  | forward => time + travelTime
  | backward => time - travelTime

end Direction

/-! ## Labels -/

/-- What is known of a node that was reached. -/
structure Label (α : Type) where
  /-- The cost from the root, final once the node is settled. -/
  cost : α
  /-- The time of day at the node. -/
  time : α
  /-- The metres between the root and the node. -/
  distance : α
  settled : Bool
  /-- The link over which the node was reached. The root has none. -/
  pred : Option LinkId

/-- The labels of a search, and the nodes that it has settled. Only those count as reached. -/
structure PathTree (α : Type) where
  root : NodeId
  direction : Direction
  rootTime : α
  labels : Array (Option (Label α))
  /-- The settled nodes, the last one first. -/
  settled : List NodeId

namespace PathTree

variable {α : Type}

/-- The label of a settled node. -/
def label? (tree : PathTree α) (node : NodeId) : Option (Label α) :=
  tree.labels[node.index]?.join.filter Label.settled

def cost? (tree : PathTree α) (node : NodeId) : Option α :=
  Label.cost <$> tree.label? node

/-- The time of day at a settled node. -/
def time? (tree : PathTree α) (node : NodeId) : Option α :=
  Label.time <$> tree.label? node

def distance? (tree : PathTree α) (node : NodeId) : Option α :=
  Label.distance <$> tree.label? node

/-- The seconds between the root and a settled node. -/
def travelTime? [Scalar α] (tree : PathTree α) (node : NodeId) : Option α :=
  (fun label => Scalar.abs (label.time - tree.rootTime)) <$> tree.label? node

/-- The number of settled nodes. -/
def settledCount (tree : PathTree α) : Nat := tree.settled.length

/-- The links from a node back to the root, at most `steps` of them. -/
def trace? (tree : PathTree α) (network : Network α) : (steps : Nat) → NodeId → Option (List LinkId)
  | 0, _ => none
  | steps + 1, node => do
    let label ← tree.labels[node.index]?.join
    match label.pred with
    | none => return []
    | some id =>
      let link ← network.links[id.index]?
      let links ← trace? tree network steps (tree.direction.nearEnd link)
      return id :: links

/-- The links between the root and a settled node, in the order of travel. -/
def pathTo? (tree : PathTree α) (network : Network α) (node : NodeId) : Option (List LinkId) := do
  let _ ← tree.label? node
  let links ← tree.trace? network tree.labels.size node
  return match tree.direction with
    | .forward => links.reverse
    | .backward => links

end PathTree

/-- A cheapest path. -/
structure RoadPath (α : Type) where
  /-- The links in the order of travel. -/
  links : List LinkId
  cost : α
  travelTime : α
  distance : α

/-- A path from a node to itself. -/
def RoadPath.isTrivial {α : Type} (path : RoadPath α) : Bool := path.links.isEmpty

/-! ## The search -/

/-- The network and the link functions of a search. -/
structure RoadSearch (α : Type) where
  network : Network α
  travelTime : LinkFunction α
  cost : LinkFunction α

/-- A search on its way. -/
structure SearchState (α : Type) where
  labels : Array (Option (Label α))
  frontier : Frontier α
  settled : List NodeId

namespace RoadSearch

variable {α : Type} [Scalar α]

/-- A value of a link function, which has to be finite and not negative. -/
def checkValue (kind : LinkQuantity) (link : LinkId) (time value : α) :
    Outcome (RoadError α) Unit :=
  if !Scalar.isFinite value then fail (.notFinite kind link time value)
  else if value < 0 then fail (.negative kind link time value)
  else .ok ()

/-- The travel time and the cost of a link at a time. -/
def linkValues (search : RoadSearch α) (link : LinkId) (time : α) :
    Outcome (RoadError α) (α × α) := do
  let travelTime ← search.travelTime.value link time
  checkValue .travelTime link time travelTime
  let cost ← search.cost.value link time
  checkValue .cost link time cost
  return (travelTime, cost)

/-- The cost of a label. A node that was not reached has none that is finite. -/
def costOf (label : Option (Label α)) : α :=
  match label with
  | some label => label.cost
  | none => Scalar.infinity

/-- Follows a link from a settled node with the label `current`. -/
def relax (search : RoadSearch α) (direction : Direction) (current : Label α)
    (state : SearchState α) (id : LinkId) : Outcome (RoadError α) (SearchState α) := do
  let link ← search.network.link id
  let next := direction.farEnd link
  let (travelTime, linkCost) ← search.linkValues id current.time
  let candidate := current.cost + linkCost
  let known ← fetch state.labels next.index
  if known.any Label.settled then
    if candidate < costOf known then
      fail (.lateDecrease next id (costOf known) candidate)
    else return state
  else if candidate < costOf known then
    let label : Label α :=
      { cost := candidate
        time := direction.after current.time travelTime
        distance := current.distance + link.length
        settled := false
        pred := some id }
    return { state with
      labels := state.labels.setIfInBounds next.index (some label)
      frontier := state.frontier.push ⟨candidate, next⟩ }
  else return state

/-- Settles the node of an entry and follows its links, unless it is the target. -/
def settle (search : RoadSearch α) (direction : Direction) (target : Option NodeId)
    (state : SearchState α) (node : NodeId) (label : Label α) :
    Outcome (RoadError α) (SearchState α) := do
  let state := { state with
    labels := state.labels.setIfInBounds node.index (some { label with settled := true })
    settled := node :: state.settled }
  if target = some node then return state
  else do
    let links ← direction.links search.network node
    links.foldlM (search.relax direction label) state

/-- Takes entries from the frontier, at most `entries` of them, until it is empty, the bound is
passed or the target is settled. -/
def explore (search : RoadSearch α) (direction : Direction) (maxCost : α)
    (target : Option NodeId) :
    (entries : Nat) → SearchState α → Outcome (RoadError α) (SearchState α)
  | 0, state => .ok state
  | entries + 1, state =>
    match state.frontier.pop? with
    | none => .ok state
    | some (entry, frontier) =>
      let state := { state with frontier }
      match state.labels[entry.node.index]?.join with
      | none => explore search direction maxCost target entries state
      | some label =>
        if label.settled ∨ label.cost < entry.cost then
          explore search direction maxCost target entries state
        else if maxCost < entry.cost then .ok state
        else do
          let state ← search.settle direction target state entry.node label
          if target = some entry.node then return state
          else explore search direction maxCost target entries state

/-- The labels from a root at a time of day, up to a cost. A link enters the frontier only when it
is followed from a settled node, and so the frontier never has more entries than there are links,
and the root. -/
def run (search : RoadSearch α) (root : NodeId) (rootTime : α) (direction : Direction)
    (maxCost : α) (target : Option NodeId) : Outcome (RoadError α) (PathTree α) :=
  if search.network.contains root then do
    let label : Label α :=
      { cost := 0, time := rootTime, distance := 0, settled := false, pred := none }
    let state ← search.explore direction maxCost target (search.network.linkCount + 1)
      { labels := (Array.replicate search.network.nodeCount none).setIfInBounds root.index
          (some label)
        frontier := Frontier.empty.push ⟨0, root⟩
        settled := [] }
    return { root, direction, rootTime, labels := state.labels, settled := state.settled }
  else fail (.unknownNode root)

/-- The labels of all nodes that a source reaches when leaving it at a time, up to a cost. An
infinite bound leaves no node out. -/
def treeFrom (search : RoadSearch α) (source : NodeId) (departure : α)
    (maxCost : α) : Outcome (RoadError α) (PathTree α) :=
  search.run source departure .forward maxCost none

/-- The labels of all nodes that reach a target when arriving there at a time, up to a cost. Link
functions are evaluated at the time at which a link is left. -/
def treeTo (search : RoadSearch α) (target : NodeId) (arrival : α)
    (maxCost : α) : Outcome (RoadError α) (PathTree α) :=
  search.run target arrival .backward maxCost none

/-- The cheapest path between two nodes when leaving the first at a time, if there is one. The
search stops as soon as the second is settled. -/
def cheapestPath (search : RoadSearch α) (source target : NodeId) (departure : α) :
    Outcome (RoadError α) (Option (RoadPath α)) :=
  if search.network.contains target then do
    let tree ← search.run source departure .forward Scalar.infinity (some target)
    return (tree.label? target).map fun label =>
      { links := (tree.pathTo? search.network target).getD []
        cost := label.cost
        travelTime := label.time - departure
        distance := label.distance }
  else fail (.unknownNode target)

end RoadSearch

end ZoneSkims
