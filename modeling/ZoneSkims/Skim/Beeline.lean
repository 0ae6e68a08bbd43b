import ZoneSkims.Skim.Assembly
import ZoneSkims.Skim.Configuration
import ZoneSkims.Zone.Basic

/-!
# Beeline matrices

A cell is the mean beeline between the sampling points of two zones.

* `beelineMatrix`: the matrix of all zones.
-/

namespace ZoneSkims

variable {α β : Type} [Scalar α] [Scalar β] [Narrowing α β]

/-- The mean beeline between two lists of points. -/
def meanBeeline (origins destinations : List (Coord α)) : α :=
  Scalar.sum (origins.flatMap fun a => destinations.map fun b => a.distance b) /
    Scalar.ofNat (origins.length * destinations.length)

/-- The cells of the row of a zone. -/
def beelineRow (zones : Zones α) (row : Nat) : Outcome (RunError α) (RowCells β) := do
  let origin ← fetch zones.zones row
  return zones.zones.toList.map fun destination =>
    some [narrow (meanBeeline origin.points destination.points)]

/-- The mean beelines between all zones. -/
def beelineMatrix (zones : Zones α) (pool : Pool) : Run α (Matrix ZoneId β) := do
  Run.notify .beelineMatrix
  let empty ← Run.orFault .matrix (Matrix.square zones.ids)
  let filled ← Run.ofOutcome (fillRows pool [empty] (beelineRow zones))
  return filled.head?.getD empty

end ZoneSkims
