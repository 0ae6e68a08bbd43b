import ZoneSkims.Id
import ZoneSkims.Outcome

/-!
# Adjacency lists

The links at each node of a network lie next to each other in one array, the node's slice, in the
order of their ids. A second array holds where each slice starts. Both are filled by counting: a
first pass over the ends of all links counts the links of each node, a second one puts each link
into the next free place of its slice.

* `Adjacency.ofEnds`: the adjacency of a list of link ends.
* `Adjacency.links`: the slice of a node.
-/

namespace ZoneSkims

/-- Links by node: the slice of node `n` is from `starts[n]` to before `starts[n + 1]`. -/
structure Adjacency where
  starts : Array Nat
  slots : Array LinkId

namespace Adjacency

/-- How often each node ends a link. -/
def countEnds (nodeCount : Nat) (ends : List NodeId) : Array Nat :=
  ends.foldl (fun counts node => counts.modify node.index (· + 1)) (Array.replicate nodeCount 0)

/-- The sums of all beginnings of a list, from `total` on: one more than the list is long. -/
def runningTotals (total : Nat) : List Nat → List Nat
  | [] => [total]
  | n :: rest => total :: runningTotals (total + n) rest

/-- Slices while they are filled, and the next free place of each. -/
structure Filling where
  free : Array Nat
  slots : Array LinkId

/-- Puts a link into the next free place of a node's slice. -/
def Filling.place (filling : Filling) (node : NodeId) (link : LinkId) : Filling :=
  match filling.free[node.index]? with
  | none => filling
  | some slot =>
    { free := filling.free.setIfInBounds node.index (slot + 1)
      slots := filling.slots.setIfInBounds slot link }

/-- The links grouped by their end. The link at position `i` of the list has the id `i`. -/
def ofEnds (nodeCount : Nat) (ends : List NodeId) : Adjacency :=
  let starts := (runningTotals 0 (countEnds nodeCount ends).toList).toArray
  let empty : Filling := { free := starts, slots := Array.replicate ends.length Id.invalid }
  let full := ends.zipIdx.foldl (fun filling (node, i) => filling.place node (Id.ofIndex i)) empty
  { starts, slots := full.slots }

/-- The links of a node in the order of their ids. -/
def links (adjacency : Adjacency) (node : NodeId) : Checked (List LinkId) := do
  let start ← fetch adjacency.starts node.index
  let stop ← fetch adjacency.starts (node.index + 1)
  if start ≤ stop ∧ stop ≤ adjacency.slots.size then
    .ok (adjacency.slots.extract start stop).toList
  else .error .outOfRange

end Adjacency

end ZoneSkims
