import ZoneSkims.Coord
import ZoneSkims.Mode
import ZoneSkims.Id
import ZoneSkims.Outcome

/-!
# Transit routes

A route is operated by trips that all call at the same stops with the same times after their start.
Trips are in the order of their starts, so that none overtakes another, and the first trip that a
waiting rider can take is found by bisection.

* `Route.departureAt`, `Route.arrivalAt`: the time of a trip at a position of the route.
* `Route.earliestTrip`: the first trip that leaves a position at a time or later.
* `Route.metresBetween`: the metres between two positions.
-/

namespace ZoneSkims

/-- A call at a stop, with the seconds from the start of the trip. -/
structure Call (α : Type) where
  stop : StopId
  arrival : α
  departure : α
  /-- The metres from the call before, if they are known. -/
  distance : Option α

/-- A line's calls in their order, and the trips that make them. -/
structure Route (α : Type) where
  line : String
  mode : Mode
  calls : Array (Call α)
  /-- The starts of the trips in ascending order. -/
  departures : Array α
  /-- The metres from the first call to each call. -/
  mileage : Array α

/-- A walk to another stop. -/
structure Transfer (α : Type) where
  target : StopId
  walkTime : α

/-- The first position from `low` on, and before `high`, at which `early` fails, if no position
where it holds comes after one where it fails. Each step halves the range. -/
def bisect (early : Nat → Bool) : (steps low high : Nat) → Nat
  | 0, low, _ => low
  | steps + 1, low, high =>
    if low < high then
      let middle := (low + high) / 2
      if early middle then bisect early steps (middle + 1) high
      else bisect early steps low middle
    else low

namespace Route

variable {α : Type}

def tripCount (route : Route α) : Nat := route.departures.size

def stopCount (route : Route α) : Nat := route.calls.size

variable [Scalar α]

/-- The time at which a trip leaves a position. -/
def departureAt (route : Route α) (trip position : Nat) : Checked α := do
  let start ← fetch route.departures trip
  let call ← fetch route.calls position
  return start + call.departure

/-- The time at which a trip comes to a position. -/
def arrivalAt (route : Route α) (trip position : Nat) : Checked α := do
  let start ← fetch route.departures trip
  let call ← fetch route.calls position
  return start + call.arrival

/-- The first trip that leaves a position at `ready` or later. -/
def earliestTrip (route : Route α) (position : Nat) (ready : α) : Checked (Option Nat) := do
  let call ← fetch route.calls position
  let early (trip : Nat) : Bool :=
    route.departures[trip]?.any fun start => decide (start + call.departure < ready)
  let trip := bisect early route.tripCount 0 route.tripCount
  return if trip < route.tripCount then some trip else none

/-- The metres between two positions. -/
def metresBetween (route : Route α) (start finish : Nat) : Checked α := do
  let last ← fetch route.mileage finish
  let first ← fetch route.mileage start
  return last - first

end Route

end ZoneSkims
