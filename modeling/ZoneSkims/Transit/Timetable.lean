import ZoneSkims.Coord.Search
import ZoneSkims.Transit.Route

/-!
# Timetables

A timetable has stops, routes and walking transfers between stops. It is drafted step by step: a
step that fails leaves the draft as it was. Stops and routes are numbered in their order.

* `TimetableDraft.addRoute`: one more route, if its calls and trips make sense.
* `TimetableDraft.addTransfer`, `TimetableDraft.addNearTransfers`: one transfer, or those between
  all near stops.
* `TimetableDraft.build`: the timetable of a draft.
* `Timetable.stopsWithin`, `Timetable.nearestStop?`: the stops around a point.
-/

namespace ZoneSkims

/-! ## Faults -/

/-- What is wrong with a route. -/
inductive RouteFault (α : Type) where
  | tooFewStops (count : Nat)
  /-- A call whose times are not finite or run back. -/
  | offsets (position : Nat)
  /-- A call whose distance is not finite or negative. -/
  | distance (position : Nat)
  /-- A trip without a finite start. -/
  | tripStart (start : α)

def RouteFault.message {α : Type} [DecimalText α] : RouteFault α → String
  | tooFewStops count => s!"needs at least two stops, got {count}"
  | offsets position => s!"offsets at position {position} are not non-decreasing"
  | distance position => s!"bad distance at position {position}"
  | tripStart start => s!"non-finite trip start {decimal start}"

/-- Parameters that have to be finite and above 0. -/
inductive PositiveParameter where
  | walkSpeed
  | beelineFactor
  | beelineWalkFactor
  | searchRadius
  deriving DecidableEq

def PositiveParameter.name : PositiveParameter → String
  | walkSpeed => "walk_speed"
  | beelineFactor => "beeline_factor"
  | beelineWalkFactor => "beeline_walk_factor"
  | searchRadius => "search_radius"

/-- What is wrong with a value given to the transit part. -/
inductive ParameterFault (α : Type) where
  | notPositive (parameter : PositiveParameter) (value : α)
  | transferDistance (value : α)
  | transferWait (value : α)
  | walkTime (value : α) (source target : StopId)

def ParameterFault.message {α : Type} [DecimalText α] : ParameterFault α → String
  | notPositive parameter value => s!"{parameter.name} must be positive, got {decimal value}"
  | transferDistance value => s!"transfer distance must not be negative, got {decimal value}"
  | transferWait value => s!"max_transfer_wait must not be negative, got {decimal value}"
  | walkTime value source target =>
    s!"transfer walk time {decimal value} from {source.name} to {target.name}"

inductive TransitError (α : Type) where
  | badRoute (line : String) (index : Nat) (reason : RouteFault α)
  | unknownStop (stop : StopId)
  | badParameter (reason : ParameterFault α)

def TransitError.message {α : Type} [DecimalText α] : TransitError α → String
  | badRoute line index reason =>
    s!"route {index} of line '{line}' is invalid: {reason.message}"
  | unknownStop stop => s!"{stop.name} is not part of the schedule"
  | badParameter reason => s!"invalid router parameter: {reason.message}"

/-- A parameter that has to be finite and above 0. -/
def requirePositive {α : Type} [Scalar α] (parameter : PositiveParameter) (value : α) :
    Except (TransitError α) Unit :=
  if Scalar.isPositive value then .ok ()
  else .error (.badParameter (.notPositive parameter value))

/-! ## Timetables -/

structure Timetable (α : Type) where
  stops : Array (Coord α)
  routes : Array (Route α)
  /-- The routes and positions at which each stop is served, in the order of the routes. -/
  serving : Array (Array (RouteId × Nat))
  /-- The transfers from each stop, in the order of their addition. -/
  transfers : Array (Array (Transfer α))

namespace Timetable

variable {α : Type}

def stopCount (timetable : Timetable α) : Nat := timetable.stops.size

def routeCount (timetable : Timetable α) : Nat := timetable.routes.size

def contains (timetable : Timetable α) (stop : StopId) : Bool :=
  decide (stop.index < timetable.stopCount)

def stop (timetable : Timetable α) (id : StopId) : Checked (Coord α) :=
  fetch timetable.stops id.index

def route (timetable : Timetable α) (id : RouteId) : Checked (Route α) :=
  fetch timetable.routes id.index

/-- Where a stop is served. -/
def servedAt (timetable : Timetable α) (stop : StopId) : Checked (List (RouteId × Nat)) :=
  Array.toList <$> fetch timetable.serving stop.index

def transfersFrom (timetable : Timetable α) (stop : StopId) : Checked (List (Transfer α)) :=
  Array.toList <$> fetch timetable.transfers stop.index

end Timetable

/-! ## Stops around a point -/

section Near

variable {α : Type} [Scalar α]

/-- The stops at most `radius` metres from a point with their distance, the nearest first and of
equally near ones the lower id. -/
def Timetable.stopsWithin (timetable : Timetable α) (point : Coord α) (radius : α) :
    List (StopId × α) :=
  let near := (Coord.within timetable.stops.toList point (radius * radius)).map
    fun (i, square) => (Id.ofIndex i, Scalar.sqrt square)
  near.mergeSort fun a b => Scalar.orderedLe a.2 b.2

/-- The stop nearest to a point, with its distance. -/
def Timetable.nearestStop? (timetable : Timetable α) (point : Coord α) :
    Checked (Option (StopId × α)) := do
  return (← Coord.nearest? timetable.stops.toList point).bind fun i =>
    timetable.stops[i]?.map fun stop => (Id.ofIndex i, stop.distance point)

end Near

/-! ## Drafts -/

/-- Stops, routes and transfers in the order of their addition. -/
structure TimetableDraft (α : Type) where
  stops : Array (Coord α)
  routes : Array (Route α)
  /-- Each transfer with the stop at which it starts. -/
  transfers : Array (StopId × Transfer α)

namespace TimetableDraft

variable {α : Type}

def empty : TimetableDraft α := { stops := #[], routes := #[], transfers := #[] }

/-- The draft with one more stop, and its id. -/
def addStop (draft : TimetableDraft α) (position : Coord α) : StopId × TimetableDraft α :=
  (Id.ofIndex draft.stops.size, { draft with stops := draft.stops.push position })

/-- The place of a stop, which has to be part of the draft. -/
def requireStop (draft : TimetableDraft α) (stop : StopId) : Except (TransitError α) (Coord α) :=
  match draft.stops[stop.index]? with
  | some position => .ok position
  | none => .error (.unknownStop stop)

variable [Scalar α]

/-- The places of the stops of a route's calls. Times are finite and never run back, from `last`
on, and given distances are finite and not negative. -/
def checkCalls (draft : TimetableDraft α) (refuse : RouteFault α → TransitError α) :
    (position : Nat) → (last : α) → List (Call α) → Except (TransitError α) (List (Coord α))
  | _, _, [] => .ok []
  | position, last, call :: calls => do
    let place ← draft.requireStop call.stop
    if !(Scalar.isFinite call.arrival && Scalar.isFinite call.departure &&
        decide (last ≤ call.arrival) && decide (call.arrival ≤ call.departure)) then
      .error (refuse (.offsets position))
    else if call.distance.any fun d => !Scalar.isNonnegative d then
      .error (refuse (.distance position))
    else
      let places ← checkCalls draft refuse (position + 1) call.departure calls
      return place :: places

/-- The metres from each call to the next. The given distances count if every call after the first
has one, and beelines between the stops otherwise. -/
def legLengths (calls : List (Call α)) (places : List (Coord α)) : List α :=
  if (calls.drop 1).all fun call => call.distance.isSome then
    (calls.drop 1).filterMap Call.distance
  else List.zipWith Coord.distance places (places.drop 1)

/-- The sums of all beginnings of a list, from `total` on. -/
def runningSums (total : α) : List α → List α
  | [] => [total]
  | x :: xs => total :: runningSums (total + x) xs

/-- The draft with one more route, and its id. -/
def addRoute (draft : TimetableDraft α) (line : String) (mode : Mode) (calls : List (Call α))
    (departures : List α) : Except (TransitError α) (RouteId × TimetableDraft α) := do
  let refuse := TransitError.badRoute line draft.routes.size
  if calls.length < 2 then .error (refuse (.tooFewStops calls.length))
  else
    let places ← draft.checkCalls refuse 0 0 calls
    match departures.find? fun start => !Scalar.isFinite start with
    | some start => .error (refuse (.tripStart start))
    | none =>
      let route : Route α :=
        { line, mode
          calls := calls.toArray
          departures := (departures.mergeSort Scalar.orderedLe).toArray
          mileage := (runningSums 0 (legLengths calls places)).toArray }
      return (Id.ofIndex draft.routes.size, { draft with routes := draft.routes.push route })

/-- The draft with one more walk from a stop to another. -/
def addTransfer (draft : TimetableDraft α) (source target : StopId) (walkTime : α) :
    Except (TransitError α) (TimetableDraft α) := do
  let _ ← draft.requireStop source
  let _ ← draft.requireStop target
  if Scalar.isNonnegative walkTime then
    return { draft with transfers := draft.transfers.push (source, ⟨target, walkTime⟩) }
  else .error (.badParameter (.walkTime walkTime source target))

/-- The walks from a stop to all others at most `maxDistance` metres away. -/
def walksFrom (draft : TimetableDraft α) (maxDistance walkSpeed beelineFactor : α) (source : Nat)
    (place : Coord α) : List (StopId × Transfer α) :=
  ((Coord.within draft.stops.toList place (maxDistance * maxDistance)).filter
    fun (target, _) => target ≠ source).map fun (target, square) =>
      (Id.ofIndex source,
        ⟨Id.ofIndex target, Scalar.sqrt square * beelineFactor / walkSpeed⟩)

/-- The walks between all stops at most `maxDistance` metres apart, in both directions. -/
def nearWalks (draft : TimetableDraft α) (maxDistance walkSpeed beelineFactor : α) :
    List (StopId × Transfer α) :=
  draft.stops.toList.zipIdx.flatMap fun (place, source) =>
    draft.walksFrom maxDistance walkSpeed beelineFactor source place

/-- What walks are made of has to make sense. -/
def requireWalks (maxDistance walkSpeed beelineFactor : α) :
    Except (TransitError α) Unit := do
  requirePositive .walkSpeed walkSpeed
  requirePositive .beelineFactor beelineFactor
  if Scalar.isNonnegative maxDistance then return ()
  else .error (.badParameter (.transferDistance maxDistance))

/-- The draft with walks in both directions between all stops at most `maxDistance` metres apart,
and their number. A walk takes the beeline times a factor for detours, divided by the speed. To find
what is near, stops are put in order as for a timetable. -/
def addNearTransfers (draft : TimetableDraft α) (maxDistance walkSpeed beelineFactor : α) :
    Outcome (TransitError α) (Nat × TimetableDraft α) := do
  (requireWalks maxDistance walkSpeed beelineFactor).mapError Failure.fault
  Coord.requireOrder draft.stops.toList
  let walks := draft.nearWalks maxDistance walkSpeed beelineFactor
  return (walks.length, { draft with transfers := draft.transfers ++ walks.toArray })

omit [Scalar α] in
/-- The elements of a list in one group per stop, each in their order. -/
def byStop {γ : Type} (stopCount : Nat) (xs : List (StopId × γ)) : Array (Array γ) :=
  xs.foldl (fun groups (stop, x) => groups.modify stop.index (·.push x))
    (Array.replicate stopCount #[])

omit [Scalar α] in
/-- The stops of all routes with the route and the position. -/
def callsByRoute (routes : List (Route α)) : List (StopId × RouteId × Nat) :=
  routes.zipIdx.flatMap fun (route, r) =>
    route.calls.toList.zipIdx.map fun (call, position) => (call.stop, Id.ofIndex r, position)

/-- The timetable of a draft whose stops can be searched. -/
def build (draft : TimetableDraft α) : Checked (Timetable α) := do
  Coord.requireOrder draft.stops.toList
  return {
    stops := draft.stops
    routes := draft.routes
    serving := byStop draft.stops.size (callsByRoute draft.routes.toList)
    transfers := byStop draft.stops.size draft.transfers.toList }

end TimetableDraft

end ZoneSkims
