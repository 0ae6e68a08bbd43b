import ZoneSkims.Skim.Assembly
import ZoneSkims.Skim.Configuration
import ZoneSkims.Transit.Rooftop
import ZoneSkims.Zone.Basic

/-!
# Transit matrices

From each sampling point the router runs once for every departure in the window that catches a
trip. Towards each point of another zone these runs offer connections, and those that no other one
makes useless are averaged over the window. A cell is the mean over the pairs of points with a
connection. Without any, times, distances and transfers are infinite, and frequency and shares 0.

* `transitCell`: the cells of a pair of zones.
* `transitMatrices`: the matrices of all zones.
-/

namespace ZoneSkims

/-- One matrix for every average. -/
structure TransitMatrices (ι β : Type) where
  adaptionTime : Matrix ι β
  frequency : Matrix ι β
  distance : Matrix ι β
  travelTime : Matrix ι β
  accessTime : Matrix ι β
  egressTime : Matrix ι β
  transferCount : Matrix ι β
  trainTimeShare : Matrix ι β
  trainDistanceShare : Matrix ι β

namespace TransitMatrices

variable {ι β : Type}

/-- The matrices in the order of their averages. -/
def toList (m : TransitMatrices ι β) : List (Matrix ι β) :=
  [m.adaptionTime, m.frequency, m.distance, m.travelTime, m.accessTime, m.egressTime,
    m.transferCount, m.trainTimeShare, m.trainDistanceShare]

/-- The matrices of a list in the order of their averages. -/
def ofList? : List (Matrix ι β) → Option (TransitMatrices ι β)
  | [adaptionTime, frequency, distance, travelTime, accessTime, egressTime, transferCount,
      trainTimeShare, trainDistanceShare] =>
    some { adaptionTime, frequency, distance, travelTime, accessTime, egressTime, transferCount,
           trainTimeShare, trainDistanceShare }
  | _ => none

/-- The same matrix for every average. -/
def replicate (m : Matrix ι β) : TransitMatrices ι β :=
  { adaptionTime := m, frequency := m, distance := m, travelTime := m, accessTime := m
    egressTime := m, transferCount := m, trainTimeShare := m, trainDistanceShare := m }

/-- Matrices in which no cell is computed. -/
def new [DecidableEq ι] (ids : Array ι) : Except MatrixError (TransitMatrices ι β) :=
  replicate <$> Matrix.square ids

end TransitMatrices

variable {α β : Type} [Scalar α]

namespace WindowAverages

/-- The averages that have a matrix, in the order of the matrices. -/
def values (s : WindowAverages α) : List α :=
  [s.adaptionTime, s.frequency, s.inVehicleDistance, s.travelTime, s.accessTime, s.egressTime,
    s.transfers, s.trainTimeShare, s.trainDistanceShare]

end WindowAverages

/-- The averages over the connections that trees offer towards the stops near a point. -/
def averagesTowards (window : Window α) (trees : List (TransitTree α))
    (egress : List (NearStop α)) : Checked (Option (WindowAverages α)) :=
  rooftop (undominated (trees.filterMap fun tree => tree.connection? egress)) window

/-- The averages of all pairs of points with a connection. -/
def summaries (window : Window α) (trees : List (List (TransitTree α)))
    (egress : List (List (NearStop α))) : Checked (List (WindowAverages α)) := do
  let found ← trees.mapM fun pointTrees =>
    egress.mapM fun pointEgress => averagesTowards window pointTrees pointEgress
  return found.flatten.filterMap id

variable [Scalar β] [Narrowing α β]

/-- The cells of a pair of zones without a connection. -/
def unreachableCell : List β :=
  let far := Scalar.infinity
  [far, 0, far, far, far, far, far, 0, 0]

/-- The cells of a pair of zones: the means over all pairs of points with a connection, which are
fewer than `2 ^ 32` as in matrices by road. -/
def transitCell (found : List (WindowAverages α)) : List β :=
  if found.isEmpty then unreachableCell
  else
    let totals := found.foldl (fun totals s => List.zipWith (· + ·) totals s.values)
      (List.replicate 9 0)
    totals.map fun total => narrow (total / Scalar.ofNat found.length)

/-- The stops near each sampling point of each zone. -/
def accessByZone (zones : Zones α) (router : TransitRouter α) :
    Checked (Array (List (List (NearStop α)))) :=
  zones.zones.mapM fun zone => zone.points.mapM router.nearStops

/-- The cells of the row of a zone. -/
def transitRow (zones : Zones α) (access : Array (List (List (NearStop α))))
    (router : TransitRouter α) (config : Configuration α) (row : Nat) :
    Outcome (RunError α) (RowCells β) := do
  let origins ← fetch access row
  let trees ← origins.mapM fun stops => router.trees stops config.window
  (List.range zones.size).mapM fun col => do
    let near ← zones.within row col config.maxBeeline
    if near then
      let egress ← fetch access col
      let found ← summaries config.window trees egress
      return some (transitCell found)
    else return none

/-- The averages for all zones. -/
def transitMatrices (zones : Zones α) (router : TransitRouter α) (config : Configuration α)
    (pool : Pool) : Run α (TransitMatrices ZoneId β) := do
  Run.notify (.transitMatrices config.window)
  let access ← Run.ofOutcome (accessByZone zones router)
  let empty : TransitMatrices ZoneId β ← Run.orFault .matrix (TransitMatrices.new zones.ids)
  let filled ← Run.ofOutcome
    (fillRows pool empty.toList (transitRow zones access router config))
  return (TransitMatrices.ofList? filled).getD empty

end ZoneSkims
