import ZoneSkims.Clock
import ZoneSkims.Transit.Timetable

/-!
# Earliest arrivals by transit

A rider leaves a place at a time and walks to a stop near it. Round `k` finds what can be reached
with `k` rides: every route at a stop that the round before improved is scanned once, from the
first such stop on, and the first trip that can be caught is ridden. After the rides of a round,
walking transfers are followed from the stops that it improved; two walks never follow each other.
An arrival is replaced only by a strictly earlier one.

* `TransitRouter.nearStops`: the stops near a place.
* `TransitRouter.tree`: the arrivals for one departure.
* `TransitRouter.trees`: the arrivals for every departure in a window that catches a trip.
-/

namespace ZoneSkims

/-! ## Parameters -/

structure RouterParameters (α : Type) where
  /-- The changes of vehicle that are allowed, below 2 ^ 32. -/
  maxTransfers : Nat
  /-- The longest wait for a change, in seconds. -/
  maxTransferWait : α
  /-- Metres per second. -/
  walkSpeed : α
  /-- How much longer a walk is than the beeline. -/
  beelineWalkFactor : α
  /-- Stops at most this far are walked to, in metres. -/
  searchRadius : α

namespace RouterParameters

variable {α : Type} [Scalar α]

def standard : RouterParameters α :=
  { maxTransfers := 6
    maxTransferWait := 3600.0
    walkSpeed := 1.1
    beelineWalkFactor := 1.3
    searchRadius := 1000.0 }

def validate (parameters : RouterParameters α) : Except (TransitError α) Unit := do
  requirePositive .walkSpeed parameters.walkSpeed
  requirePositive .beelineWalkFactor parameters.beelineWalkFactor
  requirePositive .searchRadius parameters.searchRadius
  if Scalar.isNaN parameters.maxTransferWait || decide (parameters.maxTransferWait < 0) then
    .error (.badParameter (.transferWait parameters.maxTransferWait))
  else .ok ()

/-- The seconds of a walk over a beeline distance. -/
def walkTime (parameters : RouterParameters α) (beeline : α) : α :=
  beeline * parameters.beelineWalkFactor / parameters.walkSpeed

/-- The rounds that may be scanned: one more than there may be changes. -/
def maxRounds (parameters : RouterParameters α) : Nat :=
  min (parameters.maxTransfers + 1) 0xFFFFFFFF

end RouterParameters

/-! ## Arrivals -/

/-- A stop in walking distance of a place. -/
structure NearStop (α : Type) where
  stop : StopId
  walkTime : α

/-- The best known way of reaching a stop. -/
structure Arrival (α : Type) where
  time : α
  /-- The vehicles ridden, 0 for a stop that was only walked to. -/
  legs : Nat
  /-- The walk to the first stop. -/
  accessTime : α
  inVehicleTime : α
  inVehicleDistance : α
  /-- The part of the time in vehicles that was spent in trains. -/
  trainTime : α
  /-- The part of the distance in vehicles that was covered in trains. -/
  trainDistance : α

namespace Arrival

variable {α : Type} [Scalar α]

/-- No way of reaching a stop is known. -/
def unreached : Arrival α :=
  { time := Scalar.infinity, legs := 0, accessTime := 0, inVehicleTime := 0
    inVehicleDistance := 0, trainTime := 0, trainDistance := 0 }

def isReached (arrival : Arrival α) : Bool := Scalar.isFinite arrival.time

omit [Scalar α] in
/-- The changes of vehicle. -/
def transfers (arrival : Arrival α) : Nat := arrival.legs - 1

/-- The arrival after one more ride. -/
def ride (arrival : Arrival α) (time rideTime rideDistance : α) (train : Bool) : Arrival α :=
  { arrival with
    time
    legs := arrival.legs + 1
    inVehicleTime := arrival.inVehicleTime + rideTime
    inVehicleDistance := arrival.inVehicleDistance + rideDistance
    trainTime := if train then arrival.trainTime + rideTime else arrival.trainTime
    trainDistance :=
      if train then arrival.trainDistance + rideDistance else arrival.trainDistance }

end Arrival

/-- The arrivals at all stops for one departure. -/
structure TransitTree (α : Type) where
  departure : α
  arrivals : Array (Arrival α)
  /-- The rounds that were scanned. -/
  rounds : Nat

namespace TransitTree

variable {α : Type} [Scalar α]

/-- The arrival at a stop that is reached. -/
def arrival? (tree : TransitTree α) (stop : StopId) : Option (Arrival α) :=
  tree.arrivals[stop.index]?.filter Arrival.isReached

/-- The stops that are reached, in the order of their ids. -/
def reached (tree : TransitTree α) : List (StopId × Arrival α) :=
  (tree.arrivals.toList.zipIdx.filter fun (arrival, _) => arrival.isReached).map
    fun (arrival, i) => (Id.ofIndex i, arrival)

end TransitTree

/-! ## One round -/

/-- A timetable with the parameters of a router, and which of its routes are trains. -/
structure TransitRouter (α : Type) where
  timetable : Timetable α
  parameters : RouterParameters α
  isTrain : Array Bool

/-- The arrivals of a round on its way, and the stops that it has improved. -/
structure RoundState (α : Type) where
  best : Array (Arrival α)
  improved : List StopId

/-- A trip that is ridden, from the position where it was boarded. -/
structure Boarding (α : Type) where
  trip : Nat
  position : Nat
  /-- How the boarding stop was reached. -/
  label : Arrival α

namespace RoundState

variable {α : Type}

/-- The state with a better arrival at a stop. -/
def improve (state : RoundState α) (stop : StopId) (arrival : Arrival α) : RoundState α :=
  { best := state.best.setIfInBounds stop.index arrival
    improved := if stop ∈ state.improved then state.improved else stop :: state.improved }

end RoundState

/-- A route that is to be scanned from a position on, or from an earlier one if it is in the queue
already. The queue is in the order of the routes. -/
def enqueue (queue : List (RouteId × Nat)) (route : RouteId) (position : Nat) :
    List (RouteId × Nat) :=
  match queue with
  | [] => [(route, position)]
  | (other, start) :: rest =>
    if route < other then (route, position) :: queue
    else if route = other then (other, min start position) :: rest
    else (other, start) :: enqueue rest route position

namespace TransitRouter

variable {α : Type} [Scalar α]

/-- Leaves a trip at a position if that is strictly better. -/
def alight (route : Route α) (train : Bool) (boarding : Boarding α) (position : Nat) (stop : StopId)
    (state : RoundState α) : Checked (RoundState α) := do
  let time ← route.arrivalAt boarding.trip position
  let known ← fetch state.best stop.index
  if time < known.time then
    let boarded ← route.departureAt boarding.trip boarding.position
    let rideDistance ← route.metresBetween boarding.position position
    return state.improve stop (boarding.label.ride time (time - boarded) rideDistance train)
  else return state

/-- The trip that is ridden after a position: the one that a rider can board there, if it is
earlier than the trip ridden so far. The limit on waiting holds for changes only. -/
def board (router : TransitRouter α) (route : Route α) (prev : Array (Arrival α)) (position : Nat)
    (stop : StopId) (boarded : Option (Boarding α)) : Checked (Option (Boarding α)) := do
  let here ← fetch prev stop.index
  if !here.isReached then return boarded
  match ← route.earliestTrip position here.time with
  | none => return boarded
  | some trip =>
    if boarded.any fun b => b.trip ≤ trip then return boarded
    let departure ← route.departureAt trip position
    if 0 < here.legs && decide (router.parameters.maxTransferWait < departure - here.time) then
      return boarded
    return some { trip, position, label := here }

/-- Scans the calls of a route: leaves the trip that is ridden, then looks for an earlier one. -/
def rideCalls (router : TransitRouter α) (route : Route α) (train : Bool)
    (prev : Array (Arrival α)) :
    List (Call α × Nat) → Option (Boarding α) → RoundState α → Checked (RoundState α)
  | [], _, state => .ok state
  | (call, position) :: calls, boarded, state => do
    let state ← match boarded with
      | some boarding => alight route train boarding position call.stop state
      | none => pure state
    let boarded ← router.board route prev position call.stop boarded
    rideCalls router route train prev calls boarded state

/-- Scans a route from a position on. -/
def rideRoute (router : TransitRouter α) (prev : Array (Arrival α)) (state : RoundState α)
    (queued : RouteId × Nat) : Checked (RoundState α) := do
  let route ← router.timetable.route queued.1
  let train ← fetch router.isTrain queued.1.index
  router.rideCalls route train prev (route.calls.toList.zipIdx.drop queued.2) none state

/-- The routes at a list of stops, each with the first position at one of them. -/
def routeQueue (router : TransitRouter α) (stops : List StopId) :
    Checked (List (RouteId × Nat)) :=
  stops.foldlM (fun queue stop => do
    let served ← router.timetable.servedAt stop
    return served.foldl (fun queue (route, position) => enqueue queue route position) queue) []

/-- Walks over a transfer from a stop that was reached by vehicle. -/
def walk (label : Arrival α) (state : RoundState α) (transfer : Transfer α) :
    Checked (RoundState α) := do
  let time := label.time + transfer.walkTime
  let known ← fetch state.best transfer.target.index
  return if time < known.time then state.improve transfer.target { label with time } else state

/-- Walks over all transfers from the stops that the rides of a round have improved. -/
def walkAll (router : TransitRouter α) (state : RoundState α) : Checked (RoundState α) := do
  let stops := state.improved.mergeSort fun a b => a.raw ≤ b.raw
  let sources ← stops.mapM fun stop => do return (stop, ← fetch state.best stop.index)
  sources.foldlM (fun state (stop, label) => do
    let transfers ← router.timetable.transfersFrom stop
    transfers.foldlM (walk label) state) state

/-- One more ride from the stops that the round before has improved. -/
def round (router : TransitRouter α) (marked : List StopId) (best : Array (Arrival α)) :
    Checked (RoundState α) := do
  let queue ← router.routeQueue marked
  let state ← queue.foldlM (router.rideRoute best) { best, improved := [] }
  router.walkAll state

/-- Rounds until one improves nothing, at most `left` of them after the `done` so far. -/
def rounds (router : TransitRouter α) :
    (left done : Nat) → (marked : List StopId) → Array (Arrival α) →
      Checked (Array (Arrival α) × Nat)
  | 0, done, _, best => .ok (best, done)
  | left + 1, done, marked, best =>
    if marked.isEmpty then .ok (best, done)
    else do
      let state ← router.round marked best
      rounds router left (done + 1) state.improved state.best

/-! ## Queries -/

/-- A router over a timetable, with a test for trains. -/
def new (timetable : Timetable α) (parameters : RouterParameters α) (isTrain : Route α → Bool) :
    Except (TransitError α) (TransitRouter α) := do
  parameters.validate
  return { timetable, parameters, isTrain := timetable.routes.map isTrain }

/-- The stops in walking distance of a place, or the nearest one when there are none. -/
def nearStops (router : TransitRouter α) (place : Coord α) : Checked (List (NearStop α)) := do
  let near := router.timetable.stopsWithin place router.parameters.searchRadius
  let stops ←
    if near.isEmpty then Option.toList <$> router.timetable.nearestStop? place else pure near
  return stops.map fun (stop, distance) => ⟨stop, router.parameters.walkTime distance⟩

/-- Walks from the place of departure to a stop. -/
def enter (departure : α) (state : RoundState α) (access : NearStop α) :
    Checked (RoundState α) := do
  let time := departure + access.walkTime
  let known ← fetch state.best access.stop.index
  return if time < known.time then
    state.improve access.stop { Arrival.unreached with time, accessTime := access.walkTime }
  else state

/-- The earliest arrivals at all stops when leaving at a time over the given stops. -/
def tree (router : TransitRouter α) (access : List (NearStop α)) (departure : α) :
    Checked (TransitTree α) := do
  let state ← access.foldlM (enter departure)
    { best := Array.replicate router.timetable.stopCount Arrival.unreached, improved := [] }
  let (arrivals, rounds) ←
    router.rounds router.parameters.maxRounds 0 state.improved state.best
  return { departure, arrivals, rounds }

/-- The times in a window at which leaving exactly catches a trip at one position of a route. -/
def catchTimes (router : TransitRouter α) (window : Window α) (access : NearStop α)
    (served : RouteId × Nat) : Checked (List α) := do
  let route ← router.timetable.route served.1
  let times ← (List.range route.tripCount).mapM fun trip => do
    return (← route.departureAt trip served.2) - access.walkTime
  return times.filter window.contains

/-- The list without elements equal to the one before. -/
def dropRepeats : List α → List α
  | [] => []
  | [x] => [x]
  | x :: y :: rest =>
    match dropRepeats (y :: rest) with
    | [] => [x]
    | z :: zs => if x == z then x :: zs else x :: z :: zs

/-- The departures in a window that exactly catch a trip, in ascending order. -/
def departures (router : TransitRouter α) (access : List (NearStop α)) (window : Window α) :
    Checked (List α) := do
  let times ← access.mapM fun a => do
    let served ← router.timetable.servedAt a.stop
    return (← served.mapM (router.catchTimes window a)).flatten
  return dropRepeats (times.flatten.mergeSort Scalar.orderedLe)

/-- The arrivals for every departure in a window that exactly catches a trip. -/
def trees (router : TransitRouter α) (access : List (NearStop α)) (window : Window α) :
    Checked (List (TransitTree α)) := do
  let times ← router.departures access window
  times.mapM (router.tree access)

end TransitRouter

end ZoneSkims
