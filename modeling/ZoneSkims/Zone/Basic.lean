import ZoneSkims.Coord
import ZoneSkims.Outcome
import ZoneSkims.Zone.Journal
import ZoneSkims.Zone.Table

/-!
# Zones

A zone is represented by sampling points. Only finite coordinates are usable, and a zone without
any is dropped: it is in no matrix. The zones that are left are in the order of their ids, and zone
`i` is row `i` and column `i` of every matrix.

* `Zones.new`: the zones with a usable coordinate.
* `Zones.within`: two zones are not further apart than a radius.
-/

namespace ZoneSkims

/-- A zone with its sampling points and their centre. -/
structure Zone (α : Type) where
  id : ZoneId
  points : List (Coord α)
  centroid : Coord α

structure Zones (α : Type) where
  zones : Array (Zone α)
  /-- The number of zones without a usable coordinate. -/
  dropped : Nat

variable {α : Type} [Scalar α]

/-- The mean of a list of scalars. -/
def mean (xs : List α) : α :=
  Scalar.sum xs / Scalar.ofNat xs.length

/-- The zone of the finite coordinates of a list, if there are any. -/
def Zone.ofCoords? (id : ZoneId) (coords : List (Coord α)) : Option (Zone α) :=
  let points := coords.filter Coord.isFinite
  if points.isEmpty then none
  else some { id, points, centroid := ⟨mean (points.map Coord.x), mean (points.map Coord.y)⟩ }

namespace Zones

/-- The zones with a usable coordinate, in the order of their ids. -/
def new (coords : ZoneTable (List (Coord α))) : Journaled α (Zones α) := do
  let usable := coords.filterMap fun (id, coords) => Zone.ofCoords? id coords
  let dropped := coords.length - usable.length
  if 0 < dropped then tell (.droppedZones dropped)
  return { zones := usable.toArray, dropped }

omit [Scalar α] in
def size (zones : Zones α) : Nat := zones.zones.size

omit [Scalar α] in
def isEmpty (zones : Zones α) : Bool := zones.zones.isEmpty

omit [Scalar α] in
def ids (zones : Zones α) : Array ZoneId := zones.zones.map Zone.id

omit [Scalar α] in
/-- The number of sampling points of all zones. -/
def pointCount (zones : Zones α) : Nat :=
  zones.zones.toList.foldl (fun count zone => count + zone.points.length) 0

/-- The centres of two zones are at most a radius apart. Without a radius every two zones are. -/
def within (zones : Zones α) (a b : Nat) (radius : Option α) : Checked Bool :=
  match radius with
  | none => .ok true
  | some r => do
    let first ← fetch zones.zones a
    let second ← fetch zones.zones b
    return decide (first.centroid.distance second.centroid ≤ r)

end Zones

end ZoneSkims
