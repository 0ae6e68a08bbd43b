import ZoneSkims.Transit.Connection

/-!
# Averages over a window of departures

A traveller who wants to leave at some time of a window takes the connection whose departure is
nearest to it. So each connection serves a segment of the window, from the midpoint to the
departure before to the midpoint to the departure after. The lengths of the segments weigh every
average, and the gap between wanted and actual departure is integrated over the window.

* `segments`: the part of the window that each connection serves.
* `rooftop`: the averages over a window.
-/

namespace ZoneSkims

/-- The wanted departures that a connection serves. -/
structure Segment (α : Type) where
  lower : α
  upper : α
  connection : Connection α

/-- Averages over a window. -/
structure WindowAverages (α : Type) where
  /-- The mean gap between wanted and actual departure, in seconds. -/
  adaptionTime : α
  /-- The number of connections. -/
  frequency : α
  /-- The number of connections per hour. -/
  hourlyFrequency : α
  travelTime : α
  accessTime : α
  egressTime : α
  transfers : α
  inVehicleDistance : α
  trainTimeShare : α
  trainDistanceShare : α

variable {α : Type} [Scalar α]

/-- The number of a range nearest to `x`. The range must have its ends in order. -/
def clamp (x low high : α) : Checked α :=
  if low ≤ high then .ok (if x < low then low else if high < x then high else x)
  else .error .emptyRange

/-- The midpoints between the departures of neighbouring connections, moved into the window. -/
def midpoints (window : Window α) (connections : List (Connection α)) : Checked (List α) :=
  (List.zipWith (fun a b => (a.departure + b.departure) / 2.0) connections
    (connections.drop 1)).mapM fun middle => clamp middle window.start window.finish

/-- The segments of connections in the order of departure. Each ends where the next begins. -/
def segments (window : Window α) (connections : List (Connection α)) :
    Checked (List (Segment α)) := do
  let middles ← midpoints window connections
  return List.zipWith (fun ends connection => ⟨ends.1, ends.2, connection⟩)
    ((window.start :: middles).zip (middles ++ [window.finish])) connections

/-- The integral of the distance from `departure`, up to a time. -/
def gapUpTo (time departure : α) : α :=
  let x := time - departure
  x * Scalar.abs x / 2.0

namespace WindowAverages

/-- The summary of a number of connections before any segment is counted. -/
def start (window : Window α) (count : Nat) : WindowAverages α :=
  { adaptionTime := 0
    frequency := Scalar.ofNat count
    hourlyFrequency := Scalar.ofNat count / window.hours
    travelTime := 0
    accessTime := 0
    egressTime := 0
    transfers := 0
    inVehicleDistance := 0
    trainTimeShare := 0
    trainDistanceShare := 0 }

/-- Counts a segment with its share of a window of `span` seconds. Empty segments do not count. -/
def addSegment (span : α) (summary : WindowAverages α) (segment : Segment α) :
    WindowAverages α :=
  if segment.upper ≤ segment.lower then summary
  else
    let c := segment.connection
    let share := (segment.upper - segment.lower) / span
    let gap := gapUpTo segment.upper c.departure - gapUpTo segment.lower c.departure
    { summary with
      adaptionTime := summary.adaptionTime + gap / span
      travelTime := summary.travelTime + share * c.travelTime
      accessTime := summary.accessTime + share * c.accessTime
      egressTime := summary.egressTime + share * c.egressTime
      transfers := summary.transfers + share * Scalar.ofNat c.transfers
      inVehicleDistance := summary.inVehicleDistance + share * c.inVehicleDistance
      trainTimeShare := summary.trainTimeShare + share * c.trainTimeShare
      trainDistanceShare := summary.trainDistanceShare + share * c.trainDistanceShare }

end WindowAverages

/-- The averages of connections in the order of departure, none of them dominated. There are none
without connections. -/
def rooftop (connections : List (Connection α)) (window : Window α) :
    Checked (Option (WindowAverages α)) := do
  if connections.isEmpty then return none
  let segments ← segments window connections
  return some (segments.foldl (WindowAverages.addSegment window.duration)
    (WindowAverages.start window connections.length))

end ZoneSkims
