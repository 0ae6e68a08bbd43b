import ZoneSkims.Town.Streets
import ZoneSkims.Zone.Sampling

/-!
# The districts of a synthetic town

The town is divided into squares of 500 metres. Every street corner is a location that can be
drawn, and the nearer it is to the centre the more it weighs.

* `Town.locations`: the weighted corners.
* `Town.locate`: the district of a point.
-/

namespace ZoneSkims.Town

variable {α : Type} [Scalar α]

/-- The metres along an edge of a district. -/
def districtSize : α := 500.0

/-- The metres along an edge of the town. -/
def extent : α := Scalar.ofNat (size - 1) * spacing

def centre : Coord α := ⟨1000.0, 1000.0⟩

/-- All corners, weighted by their distance from the centre. -/
def locations : List (Candidate α) :=
  (List.range (size * size)).map fun i =>
    let coord := cornerPosition (i / size) (i % size)
    { coord, weight := 1.0 / (1.0 + coord.distance centre / 500.0) }

/-- A place along an edge of the town. -/
def isInside (place : α) : Bool :=
  decide (0 ≤ place) && decide (place ≤ extent)

/-- The number of the district at a place along an edge. The far end is part of the last one. -/
def districtIndex (place : α) : Nat :=
  min (Scalar.truncate (place / districtSize)) (Scalar.ceilNat (extent / districtSize : α) - 1)

/-- The district of a point. Nothing outside the town is in one. -/
def locate (point : Coord α) : Option ZoneId :=
  if isInside point.x && isInside point.y then
    some s!"Z{districtIndex point.y}{districtIndex point.x}"
  else none

end ZoneSkims.Town
