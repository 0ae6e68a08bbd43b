import ZoneSkims.Road.Observed
import ZoneSkims.Skim.Calculator
import ZoneSkims.Skim.Document
import ZoneSkims.Text.Column
import ZoneSkims.Town.Districts
import ZoneSkims.Town.Lines

/-!
# The report on a synthetic town

The matrices between the districts of the town are calculated by beeline, by car on empty and on
congested roads, and by transit. The report lists every matrix with its mean, and two of them cell
by cell.

* `Town.prepare`: what is printed before the matrices, and what they need.
* `Town.calculate`: the matrices.
* `Town.tabulate`: what is printed after them.
* `Town.report`: all of it, and whether it failed.
-/

namespace ZoneSkims.Town

/-! ## Printing -/

/-- The lines and the notices of a report so far. -/
structure Transcript where
  lines : List String
  notices : List (Notice Float)

/-- The part of a report up to its failure, if it fails. -/
abbrev Reporting (γ : Type) : Type := ExceptT (Failure (RunError Float)) (StateM Transcript) γ

/-- Prints a line. -/
def print (line : String) : Reporting Unit :=
  modify fun t => { t with lines := t.lines ++ [line] }

/-- A run with its notices. -/
def perform {γ : Type} (run : Run Float γ) : Reporting γ :=
  ExceptT.mk fun t =>
    let (result, notices) := run.run t.notices
    (result, { t with notices })

/-! ## Preparation -/

/-- What is calculated when no configuration is given. -/
def standardConfig (workers : Nat) : Configuration Float :=
  { Configuration.standard workers with
    departures := [7.5 * 3600.0, 8.0 * 3600.0, 8.5 * 3600.0]
    window := { start := 7.0 * 3600.0, finish := 9.0 * 3600.0 }
    pointsPerZone := 4
    seed := 42
    maxBeeline := some 2500.0 }

/-- What the matrices need. -/
structure Prepared where
  calculator : Calculator Float
  car : Network Float
  timetable : Timetable Float

/-- The line that describes a configuration. -/
def configLine (config : Configuration Float) : String :=
  let departures := String.intercalate ", " (config.departures.map fun time => Clock.text time)
  s!"Departures: {departures}  |  PT window: {config.window.text}  |  Threads: {config.workers}"

/-- Prints what the matrices are calculated from. -/
def prepare (config : Configuration Float) : Reporting Prepared := do
  print "=== grid — zone-to-zone skim matrices ==="
  print (configLine config)
  print ""
  let network ← perform (Run.ofOutcome (streets : Checked (Network Float)))
  let car ← perform (Run.ofOutcome (network.restrictTo .car))
  let carLinks := s!"({car.linkCount} car links)"
  print s!"Network: {network.nodeCount} nodes, {network.linkCount} links {carLinks}"
  let (walks, timetable) ← perform (Run.ofOutcome (timetable.mapError (Failure.map .transit)))
  perform (Run.notify (.timetableReady timetable.stopCount walks))
  print s!"Schedule: {timetable.stopCount} stops, {timetable.routeCount} routes"
  let drawn ← perform (ExceptT.lift (samplePoints Generator.source locations
    config.pointsPerZone (Generator.ofSeed config.seed) locate))
  let points ← perform (Run.ofOutcome drawn)
  print s!"Zones with sampling points: {points.length}"
  print ""
  let calculator ← perform (Calculator.new config points)
  return { calculator, car, timetable }

/-! ## Matrices -/

def costPerSecond : Float := 1.0 / 3600.0

def costPerMetre : Float := 0.2 / 1000.0

/-- Arterial roads take less time in free flow than this. -/
def arterialTime : Float := 200.0 / (40.0 / 3.6)

/-- Observations of arterial roads at half their speed, in the quarter hours before and after eight
in the morning. -/
def peakTimes (network : Network Float) : Checked (ObservedTimes Float) := do
  let empty ← ObservedTimes.new network 900.0 (30.0 * 3600.0)
  (List.range network.linkCount).foldlM (fun observed i => do
    let link := Id.ofIndex i
    let free ← network.freeFlowTime link
    if free < arterialTime then
      let once ← observed.observe link (7.75 * 3600.0) (free * 2.0)
      once.observe link (8.0 * 3600.0) (free * 2.0)
    else return observed) empty

/-- The search by a travel time, with a cost per second and per metre. -/
def carSearch (network : Network Float) (travelTime : LinkFunction Float) : RoadSearch Float :=
  { network, travelTime
    cost := LinkFunction.timeDistanceCost network travelTime costPerSecond costPerMetre }

structure Results where
  beeline : Matrix ZoneId Float32
  freeFlow : RoadMatrices ZoneId Float32
  congested : RoadMatrices ZoneId Float32
  transit : TransitMatrices ZoneId Float32

/-- The matrices of the report. -/
def calculate (prepared : Prepared) : Run Float Results := do
  let beeline ← prepared.calculator.beeline
  let freeFlow ← prepared.calculator.road
    (carSearch prepared.car (LinkFunction.freeFlow prepared.car))
  let observed ← Run.ofOutcome (peakTimes prepared.car)
  let congested ← prepared.calculator.road
    (carSearch prepared.car (observed.travelTime prepared.car))
  let transit ← prepared.calculator.transit prepared.timetable
  return { beeline, freeFlow, congested, transit }

/-! ## Tables -/

/-- The mean of a matrix over its finite cells. Without any it is undefined. -/
def meanCell (finite : List Float32) : Float32 :=
  if finite.isEmpty then 0 / 0 else Scalar.sum finite / Scalar.ofNat finite.length

/-- The line of a matrix: how many cells are computed, how many of them infinite, and the mean. -/
def summaryLine (name : String) (m : Matrix ZoneId Float32) : String :=
  let values := m.cells.toList.filterMap id
  let finite := values.filter Scalar.isFinite
  let entries := [flushLeft 24 name, flushRight 6 s!"{values.length}",
    flushRight 6 s!"{values.length - finite.length}", flushRight 10 (tenths (meanCell finite))]
  String.intercalate " " entries

/-- The entry of a cell, scaled. -/
def cellText (scale : Float32) : Option Float32 → String
  | none => "-"
  | some value => if Scalar.isFinite value then tenths (value * scale) else "inf"

/-- A row of a table. -/
def rowLine (m : Matrix ZoneId Float32) (scale : Float32) (row : Nat) (id : ZoneId) : String :=
  let cells := (m.cells.extract (row * m.cols) (row * m.cols + m.cols)).toList
  flushLeft 6 id ++ String.join (cells.map fun cell => flushRight 7 (cellText scale cell))

/-- A matrix cell by cell. -/
def tableLines (title : String) (m : Matrix ZoneId Float32) (scale : Float32) : List String :=
  let header := flushLeft 6 "" ++ String.join (m.colIds.toList.map (flushRight 7))
  title :: header :: m.rowIds.toList.zipIdx.map (fun (id, row) => rowLine m scale row id) ++ [""]

/-- The lines after the matrices are calculated. -/
def tabulate (results : Results) : List String :=
  let transit := results.transit
  let minutes : Float32 := 1.0 / 60.0
  let header :=
    [flushLeft 24 "Matrix", flushRight 6 "Cells", flushRight 6 "Inf", flushRight 10 "Mean"]
  ["", String.intercalate " " header, String.ofList (List.replicate 49 '-'),
    summaryLine "beeline distance [m]" results.beeline,
    summaryLine "car free tt [s]" results.freeFlow.travelTime,
    summaryLine "car free dist [m]" results.freeFlow.distance,
    summaryLine "car congested tt [s]" results.congested.travelTime,
    summaryLine "pt adaption [s]" transit.adaptionTime,
    summaryLine "pt frequency [/window]" transit.frequency,
    summaryLine "pt travel time [s]" transit.travelTime,
    summaryLine "pt access [s]" transit.accessTime,
    summaryLine "pt egress [s]" transit.egressTime,
    summaryLine "pt transfers" transit.transferCount,
    summaryLine "pt in-vehicle dist [m]" transit.distance,
    summaryLine "pt train share (time)" transit.trainTimeShare,
    summaryLine "pt train share (dist)" transit.trainDistanceShare,
    ""] ++
    tableLines "Car travel time, congested [min]" results.congested.travelTime minutes ++
    tableLines "PT travel time [min]" transit.travelTime minutes

/-! ## The whole report -/

/-- A finished report. -/
structure Report where
  /-- 0 for a report that is complete. -/
  status : Nat
  lines : List String

/-- The status of a failure: 1 for a fault, 101 for a breach. -/
def failureStatus : Failure (RunError Float) → Nat
  | .fault _ => 1
  | .breach _ => 101

/-- The report of a configuration. -/
def report (config : Configuration Float) : Report :=
  let run : Reporting Unit := do
    let prepared ← prepare config
    let results ← perform (calculate prepared)
    (tabulate results).forM print
  let (result, transcript) := run.run { lines := [], notices := [] }
  let status := match result with
    | .ok _ => 0
    | .error failure => failureStatus failure
  { status, lines := transcript.lines }

/-- The report of a configuration document. One that cannot be read leaves the report empty. -/
def reportOf (workers : Nat) (document : String) : Report :=
  match Configuration.parse? workers document with
  | some config => report config
  | none => { status := 1, lines := [] }

end ZoneSkims.Town
