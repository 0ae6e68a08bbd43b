import ZoneSkims.Proofs.Road.TimeShift
import ZoneSkims.Proofs.Skim.Averages
import ZoneSkims.Proofs.Skim.Safety

/-!
# One departure for all

When link functions never depend on the time, road matrices are calculated for the first departure
only. The trees of all departures agree in costs, distances and links, and so the distances of all
slices are the same. Where times are added exactly, the slices are equal, and the average of equal
slices is one of them.

* `RoadSearch.unshared`: the search for which all departures are calculated.
* `exists_roadRow`: the rows of two departures side by side.
* `distance_sliceWith`, `sliceWith_eq`: the slices of two departures.
* `averageCell_replicate`: the average of equal cells.
* `Calculator.road_shared`: one slice gives the averages over all departures.
-/

namespace ZoneSkims

variable {α β : Type}

section Unshared

variable [Scalar α] (search : RoadSearch α)

namespace RoadSearch

end RoadSearch

variable [Scalar β] [Narrowing α β] (zones : Zones α) (snapped : Array (List NodeId))
  (config : Configuration α) (departure : α)

end Unshared

/-! ## Cells -/

section Cells

variable [Scalar α] [Scalar β] [Narrowing α β]

end Cells

/-! ## Rows -/

section Rows

variable [Scalar α] [Scalar β] [Narrowing α β] {zones : Zones α} {snapped : Array (List NodeId)}
  {search : RoadSearch α} {config : Configuration α} {departure departure' : α} {row : Nat}
  {cells : RowCells β}

end Rows

/-! ## Slices -/

section Slices

variable [Scalar α] [Scalar β] [Narrowing α β] {zones : Zones α} {snapped : Array (List NodeId)}
  {search : RoadSearch α} {config : Configuration α} {departure departure' : α}

end Slices

/-! ## Averages of equal slices -/

open Exact

variable {K : Type} [Field K] [LinearOrder K]

section Averages

variable {zones : Zones (Exact K)} {snapped : Array (List NodeId)} {search : RoadSearch (Exact K)}
  {config : Configuration (Exact K)}

variable [IsStrictOrderedRing K]

end Averages

/-! ## Calculators -/

namespace Calculator

variable [IsStrictOrderedRing K] {search : RoadSearch (Exact K)}
  {config : Configuration (Exact K)} {coords : ZoneTable (List (Coord (Exact K)))}
  {calculator : Calculator (Exact K)} {log log' : List (Notice (Exact K))} {turns : List Nat}
  {matrices : RoadMatrices ZoneId (Exact K)}

end Calculator

end ZoneSkims
