import ZoneSkims.Coord
import ZoneSkims.Outcome
import ZoneSkims.Zone.Journal
import ZoneSkims.Zone.Random
import ZoneSkims.Zone.Table

/-!
# Sampling points

Every zone is represented by some of the locations in it, drawn with replacement and with a
probability proportional to their weight. A zone without a positive weight draws all its locations
with the same probability. One stream of random numbers serves all zones in their order.

* `drawByWeight`: a draw of one location.
* `drawPoints`: the drawn points of one zone.
* `samplePoints`: the drawn points of all zones.
-/

namespace ZoneSkims

/-- A location that can represent its zone. -/
structure Candidate (α : Type) where
  coord : Coord α
  weight : α

variable {α γ : Type} [Scalar α]

/-- The weight that counts: a negative, infinite or undefined one is 0. -/
def Candidate.usableWeight (location : Candidate α) : α :=
  if Scalar.isFinite location.weight then Scalar.max location.weight 0 else 0

/-- Weights as limits on a line: the sums of all beginnings but the whole, and the whole sum. -/
structure WeightScale (α : Type) where
  limits : List α
  total : α

namespace WeightScale

/-- The scale of `total` and further weights. -/
def extend (total : α) : List α → WeightScale α
  | [] => { limits := [], total }
  | w :: ws =>
    let scale := extend (total + w) ws
    { scale with limits := total :: scale.limits }

def ofWeights : List α → WeightScale α
  | [] => { limits := [], total := 0 }
  | w :: ws => extend w ws

/-- The position of the weight at a place on the line. -/
def locate (scale : WeightScale α) (place : α) : Nat :=
  scale.limits.countP fun limit => decide (limit ≤ place)

end WeightScale

/-- Draws a position by the weights of a scale. -/
def drawByWeight (source : DrawSource α γ) (scale : WeightScale α) (state : γ) : Nat × γ :=
  let (place, state) := source.fraction scale.total state
  (scale.locate place, state)

/-- Draws a number of times. -/
def drawTimes (draw : γ → Nat × γ) : (times : Nat) → γ → List Nat × γ
  | 0, state => ([], state)
  | times + 1, state =>
    let (position, state) := draw state
    let (positions, state) := drawTimes draw times state
    (position :: positions, state)

/-- The drawn points of a zone. The weights must have a finite sum. -/
def drawPoints (source : DrawSource α γ) (count : Nat) (candidates : List (Candidate α))
    (state : γ) : Checked (List (Coord α) × γ) := do
  let scale := WeightScale.ofWeights (candidates.map Candidate.usableWeight)
  if !Scalar.isFinite scale.total then .error .weightTotal
  else
    let draw := if scale.total == 0 then source.index candidates.length
      else drawByWeight source scale
    let (positions, state) := drawTimes draw count state
    let picks ← positions.mapM (fetch candidates.toArray)
    return (picks.map Candidate.coord, state)

/-- The drawn points of all zones in their order. -/
def drawZones (source : DrawSource α γ) (count : Nat) :
    ZoneTable (List (Candidate α)) → γ → Checked (ZoneTable (List (Coord α)))
  | [], _ => .ok []
  | (id, candidates) :: zones, state => do
    let (points, state) ← drawPoints source count candidates state
    let others ← drawZones source count zones state
    return (id, points) :: others

/-- The locations by zone. -/
def assignLocations (locate : Coord α → Option ZoneId) (locations : List (Candidate α)) :
    ZoneTable (List (Candidate α)) :=
  ZoneTable.group (locations.filterMap fun location =>
    (locate location.coord).map fun id => (id, location))

/-- Draws points for every zone that `locate` assigns a location to. Locations that it cannot
assign are left out. -/
def samplePoints (source : DrawSource α γ) (locations : List (Candidate α))
    (count : Nat) (start : γ) (locate : Coord α → Option ZoneId) :
    Journaled α (Checked (ZoneTable (List (Coord α)))) := do
  let unassigned := locations.countP fun location => (locate location.coord).isNone
  if 0 < unassigned then tell (.unassignedLocations unassigned locations.length)
  return drawZones source count (assignLocations locate locations) start

end ZoneSkims
