import ZoneSkims.Road.Search
import ZoneSkims.Skim.Assembly
import ZoneSkims.Skim.Configuration
import ZoneSkims.Zone.Basic

/-!
# Road matrices

Every sampling point is moved to the nearest node of the network. From each point of a zone a search
labels all nodes, and a cell is the mean over the pairs of points that it connects. Cells of zones
that are too far apart are not computed, nor are, under a limit on cost, cells without a connected
pair; without such a limit those are infinite. Matrices are averages over all departures.

* `roadSlice`: the matrices of one departure.
* `roadMatrices`: the averages over all departures.
-/

namespace ZoneSkims

/-- Travel time in seconds and distance in metres by road. -/
structure RoadMatrices (ι β : Type) where
  travelTime : Matrix ι β
  distance : Matrix ι β

namespace RoadMatrices

variable {ι β : Type} [DecidableEq ι]

/-- Matrices in which no cell is computed. -/
def new (ids : Array ι) : Except MatrixError (RoadMatrices ι β) := do
  return { travelTime := ← Matrix.square ids, distance := ← Matrix.square ids }

variable [Scalar β]

def combine (m other : RoadMatrices ι β) : Except MatrixError (RoadMatrices ι β) := do
  return { travelTime := ← m.travelTime.combine other.travelTime
           distance := ← m.distance.combine other.distance }

omit [DecidableEq ι] in
def scale (m : RoadMatrices ι β) (factor : β) : RoadMatrices ι β :=
  { travelTime := m.travelTime.scale factor, distance := m.distance.scale factor }

end RoadMatrices

variable {α β : Type} [Scalar α]

/-- The nodes of the sampling points of each zone. -/
def nodesOfZones (zones : Zones α) (network : Network α) : Checked (Array (List NodeId)) :=
  zones.zones.mapM fun zone => do
    return (← zone.points.mapM network.nearestNode?).filterMap id

/-- The travel times and distances of all connected pairs: the trees of the origin points by the
nodes of the destination points. -/
def connectedPairs (trees : List (PathTree α)) (nodes : List NodeId) : List (α × α) :=
  trees.flatMap fun tree => nodes.filterMap fun node => do
    return (← tree.travelTime? node, ← tree.distance? node)

/-- The mean of at least one number. There are fewer than `2 ^ 32` of them, as many as 32 bits can
count. -/
def meanOf (xs : List α) : α :=
  xs.foldl (· + ·) 0 / Scalar.ofNat xs.length

variable [Scalar β] [Narrowing α β]

/-- The cells of a pair of zones in the matrices of travel time and distance. Fewer than `2 ^ 32`
pairs of points are connected, so that 32 bits are enough to count them: two zones with 65,536
points each are beyond that. -/
def roadCell (limited : Bool) (pairs : List (α × α)) : Option (List β) :=
  if pairs.isEmpty then
    if limited then none else some [Scalar.infinity, Scalar.infinity]
  else some [narrow (meanOf (pairs.map (·.1))), narrow (meanOf (pairs.map (·.2)))]

/-- The trees of the points of a zone. -/
def roadTrees (search : RoadSearch α) (zone : Zone α) (nodes : List NodeId)
    (departure maxCost : α) : Outcome (RunError α) (List (PathTree α)) :=
  (nodes.mapM fun node => search.treeFrom node departure maxCost).mapError
    (Failure.map (RunError.road zone.id))

/-- The cells of the row of a zone. -/
def roadRow (zones : Zones α) (snapped : Array (List NodeId)) (search : RoadSearch α)
    (config : Configuration α) (departure : α) (row : Nat) : Outcome (RunError α) (RowCells β) := do
  let zone ← fetch zones.zones row
  let nodes ← fetch snapped row
  let trees ← roadTrees search zone nodes departure (config.costLimit.getD Scalar.infinity)
  (List.range zones.size).mapM fun col => do
    let near ← zones.within row col config.maxBeeline
    let nodes ← fetch snapped col
    return if near then roadCell config.costLimit.isSome (connectedPairs trees nodes) else none

/-- The matrices of one departure. -/
def roadSlice (zones : Zones α) (snapped : Array (List NodeId)) (search : RoadSearch α)
    (config : Configuration α) (pool : Pool) (departure : α) :
    Run α (RoadMatrices ZoneId β) := do
  Run.notify (.roadMatrices departure)
  let empty : RoadMatrices ZoneId β ← Run.orFault .matrix (RoadMatrices.new zones.ids)
  let filled ← Run.ofOutcome
    (fillRows pool [empty.travelTime, empty.distance]
      (roadRow zones snapped search config departure))
  return match filled with
    | [travelTime, distance] => { travelTime, distance }
    | _ => empty

/-- The sum of the matrices of several departures. -/
def addSlices (zones : Zones α) (snapped : Array (List NodeId)) (search : RoadSearch α)
    (config : Configuration α) (pool : Pool) :
    (total : RoadMatrices ZoneId β) → (departures : List α) → Run α (RoadMatrices ZoneId β)
  | total, [] => return total
  | total, departure :: departures => do
    let slice ← roadSlice zones snapped search config pool departure
    let total ← Run.orFault .matrix (total.combine slice)
    addSlices zones snapped search config pool total departures

/-- The averages over all departures. Link functions that never depend on the time give the same
matrices for every departure, and then only the first is calculated. -/
def roadMatrices (zones : Zones α) (search : RoadSearch α) (config : Configuration α)
    (pool : Pool) : Run α (RoadMatrices ZoneId β) := do
  match config.departures with
  | [] => throw (.fault (.config .noDepartures))
  | first :: _ =>
    let snapped ← Run.ofOutcome (nodesOfZones zones search.network)
    let unsnapped := snapped.toList.countP List.isEmpty
    if 0 < unsnapped then Run.notify (.unsnappedZones unsnapped)
    let count := config.departures.length
    if search.travelTime.timeInvariant && search.cost.timeInvariant then
      if 1 < count then Run.notify (.sharedSlice count)
      roadSlice zones snapped search config pool first
    else
      let empty ← Run.orFault .matrix (RoadMatrices.new zones.ids)
      let total ← addSlices zones snapped search config pool empty config.departures
      return total.scale (Scalar.ofNat 1 / Scalar.ofNat count)

end ZoneSkims
