import ZoneSkims.Clock

/-!
# Notices

A run tells what it does and what it leaves out. Notices are kept in their order, and those made
before a run fails stay.

* `Notice`, `Notice.message`: what is told, and its words.
* `Journaled`: calculations that give notices.
-/

namespace ZoneSkims

/-- How much a notice matters. -/
inductive Level where
  | info
  | warning
  deriving DecidableEq

/-- What a run tells. -/
inductive Notice (α : Type) where
  /-- Zones without a usable coordinate. -/
  | droppedZones (count : Nat)
  /-- Locations that belong to no zone. -/
  | unassignedLocations (count total : Nat)
  | started (zones points workers : Nat)
  | beelineMatrix
  /-- One slice is calculated for several departure times. -/
  | sharedSlice (departures : Nat)
  | roadMatrices (departure : α)
  /-- Zones that no node of the network is near to. -/
  | unsnappedZones (count : Nat)
  | transitMatrices (window : Window α)
  | timetableReady (stops walks : Nat)

namespace Notice

variable {α : Type}

def level : Notice α → Level
  | droppedZones _ | unassignedLocations .. | unsnappedZones _ => .warning
  | _ => .info

def message [Scalar α] : Notice α → String
  | droppedZones count => s!"{count} zones without a usable coordinate were dropped"
  | unassignedLocations count total =>
    s!"{count} of {total} locations could not be assigned to a zone"
  | started zones points workers =>
    s!"{zones} zones with {points} sampling points, {workers} worker threads"
  | beelineMatrix => "calc beeline distance matrix"
  | sharedSlice departures =>
    s!"link costs are time-invariant; one slice stands for {departures} departure times"
  | roadMatrices departure => s!"calc network matrices for {Clock.text departure}"
  | unsnappedZones count =>
    s!"{count} zones could not be snapped to the network and stay unreachable"
  | transitMatrices window => s!"calc PT matrices for {window.text}"
  | timetableReady stops walks => s!"schedule: {stops} stops, {walks} walking transfers"

end Notice

/-- Calculations that give notices. -/
abbrev Journaled (α β : Type) : Type := StateM (List (Notice α)) β

/-- Gives a notice. -/
def tell {α : Type} (notice : Notice α) : Journaled α Unit :=
  modify (· ++ [notice])

end ZoneSkims
