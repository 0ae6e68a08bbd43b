import ZoneSkims.Transit.Router

/-!
# Connections

A connection leads from one place to another by transit: a walk to a stop, rides with changes, and
a walk from the last stop.

* `TransitTree.connection?`: the earliest connection of a departure.
* `undominated`: the connections that no other one makes useless, by departure.
-/

namespace ZoneSkims

/-- A way from door to door. -/
structure Connection (α : Type) where
  /-- Leaving the place of departure, in seconds after midnight. -/
  departure : α
  /-- Door to door, walks included. -/
  travelTime : α
  accessTime : α
  egressTime : α
  transfers : Nat
  inVehicleTime : α
  inVehicleDistance : α
  trainTime : α
  trainDistance : α

namespace Connection

variable {α : Type} [Scalar α]

def arrival (connection : Connection α) : α :=
  connection.departure + connection.travelTime

/-- A part of a whole, 0 for an empty whole. -/
def share (part whole : α) : α :=
  if 0 < whole then part / whole else 0

/-- The part of the time in vehicles that is spent in trains. -/
def trainTimeShare (connection : Connection α) : α :=
  share connection.trainTime connection.inVehicleTime

/-- The part of the distance in vehicles that is covered in trains. -/
def trainDistanceShare (connection : Connection α) : α :=
  share connection.trainDistance connection.inVehicleDistance

/-- Later departures come first, and of equal ones the earlier arrival. -/
def sweepsBefore (a b : Connection α) : Bool :=
  ((Scalar.order b.departure a.departure).then (Scalar.order a.arrival b.arrival)).isLE

/-- The connections of a list that arrive before all earlier ones of it, and before `earliest`. -/
def arrivingBefore (earliest : α) : List (Connection α) → List (Connection α)
  | [] => []
  | c :: rest =>
    if c.arrival < earliest then c :: arrivingBefore c.arrival rest
    else arrivingBefore earliest rest

end Connection

/-- The connections in the order of departure, without those for which another one leaves no
earlier and arrives no later. Of connections with the same times the first stays. -/
def undominated {α : Type} [Scalar α] (connections : List (Connection α)) :
    List (Connection α) :=
  (Connection.arrivingBefore Scalar.infinity
    (connections.mergeSort Connection.sweepsBefore)).reverse

namespace TransitTree

variable {α : Type} [Scalar α]

/-- A stop at which a connection can end: the arrival at the door, the arrival at the stop and the
walk between them. -/
structure Ending (α : Type) where
  time : α
  label : Arrival α
  walkTime : α

/-- The way over a stop, if it is reached by vehicle. -/
def ending? (tree : TransitTree α) (egress : NearStop α) : Option (Ending α) :=
  ((tree.arrival? egress.stop).filter fun label => 0 < label.legs).map fun label =>
    ⟨label.time + egress.walkTime, label, egress.walkTime⟩

/-- The earlier of two endings, the first on a tie. -/
def earlier (best : Option (Ending α)) (ending : Ending α) : Option (Ending α) :=
  match best with
  | none => some ending
  | some b => if ending.time < b.time then some ending else some b

/-- The earliest connection over the given stops. A way without a ride is none. -/
def connection? (tree : TransitTree α) (egress : List (NearStop α)) : Option (Connection α) :=
  ((egress.filterMap tree.ending?).foldl earlier none).map fun ending =>
    { departure := tree.departure
      travelTime := ending.time - tree.departure
      accessTime := ending.label.accessTime
      egressTime := ending.walkTime
      transfers := ending.label.transfers
      inVehicleTime := ending.label.inVehicleTime
      inVehicleDistance := ending.label.inVehicleDistance
      trainTime := ending.label.trainTime
      trainDistance := ending.label.trainDistance }

end TransitTree

end ZoneSkims
