import ZoneSkims.Town.Streets
import ZoneSkims.Transit.Timetable

/-!
# The transit lines of a synthetic town

A bus runs from west to east along the middle street, and a train from south to north along the
middle avenue. The platform is ten metres from the bus stop, so that changing between them is a
walk.

* `Town.timetable`: the lines as a timetable, with the number of walks between their stops.
-/

namespace ZoneSkims.Town

variable {α : Type} [Scalar α]

def hour : α := 3600.0

/-- The bus stops from west to east: every 400 metres. -/
def busStops : List (Coord α) :=
  (List.range 6).map fun i => ⟨Scalar.ofNat i * 400.0, 1000.0⟩

/-- The platforms from south to north: every kilometre. -/
def platforms : List (Coord α) :=
  [⟨1010.0, 0⟩, ⟨1010.0, 1000.0⟩, ⟨1010.0, 2000.0⟩]

/-- A bus takes 110 seconds to the next stop, 20 of them at a stop on the way. -/
def busCalls (stops : List StopId) : List (Call α) :=
  stops.zipIdx.map fun (stop, i) =>
    let arrival := Scalar.ofNat i * 110.0
    { stop, arrival
      departure := if i = 0 ∨ i + 1 = stops.length then arrival else arrival + 20.0
      distance := none }

/-- A train takes 150 seconds to the next platform, 30 of them at the middle one. The track is
longer than the beeline. -/
def trainCalls (stops : List StopId) : List (Call α) :=
  stops.zipIdx.map fun (stop, i) =>
    let arrival := Scalar.ofNat i * 150.0
    { stop, arrival
      departure := arrival + if i = 1 then 30.0 else 0
      distance := some (if i = 0 then 0 else 1050.0) }

/-- Times from `first` on with a fixed headway, none after `last`. -/
def every (first last headway : α) : List α :=
  (List.range (Scalar.truncate ((last - first) / headway) + 1)).map fun i =>
    first + Scalar.ofNat i * headway

/-- The draft with more stops, and their ids. -/
def addStops (draft : TimetableDraft α) (places : List (Coord α)) :
    List StopId × TimetableDraft α :=
  places.foldl (fun (stops, draft) place =>
    let (stop, draft) := draft.addStop place
    (stops ++ [stop], draft)) ([], draft)

/-- The draft with the stops and the lines, before walks between the stops are added. -/
def timetableDraft : Except (TransitError α) (TimetableDraft α) := do
  let (bus, draft) := addStops TimetableDraft.empty busStops
  let (_, draft) ← draft.addRoute "B1" .bus (busCalls bus) (every (6.0 * hour) (10.0 * hour) 600.0)
  let (_, draft) ← draft.addRoute "B1" .bus (busCalls bus.reverse)
    (every (6.0 * hour + 300.0) (10.0 * hour) 600.0)
  let (rail, draft) := addStops draft platforms
  let (_, draft) ← draft.addRoute "S1" .rail (trainCalls rail)
    (every (6.0 * hour) (10.0 * hour) 1200.0)
  let (_, draft) ← draft.addRoute "S1" .rail (trainCalls rail.reverse)
    (every (6.0 * hour + 600.0) (10.0 * hour) 1200.0)
  return draft

/-- The number of walks between stops, and the timetable. -/
def timetable : Outcome (TransitError α) (Nat × Timetable α) := do
  let draft ← timetableDraft.mapError Failure.fault
  let (walks, draft) ← draft.addNearTransfers 100.0 walkSpeed 1.3
  return (walks, ← draft.build)

end ZoneSkims.Town
