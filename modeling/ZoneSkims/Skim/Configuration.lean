import ZoneSkims.Matrix
import ZoneSkims.Road.Search
import ZoneSkims.Text.Quoted
import ZoneSkims.Transit.Router
import ZoneSkims.Zone.Journal
import ZoneSkims.Zone.Table

/-!
# Configurations

A configuration says for which departures matrices are calculated, how far searches go and how many
workers there are. It is checked before anything is calculated.

* `Configuration.standard`: what is not given has a standard value.
* `Configuration.validate`: the first thing that is wrong with a configuration.
* `RunError`: the ways in which a run can fail.
-/

namespace ZoneSkims

/-- What is wrong with a configuration, or with the zones given with it. -/
inductive ConfigFault (α : Type) where
  | noWorkers
  | noDepartures
  | departure (time : α)
  | beelineLimit (metres : α)
  | costLimit (cost : α)
  | noUsableZone

def ConfigFault.message {α : Type} [DecimalText α] : ConfigFault α → String
  | noWorkers => "num_threads must be at least 1"
  | noDepartures => "no departure times given"
  | departure time => s!"departure time {decimal time} is not finite"
  | beelineLimit metres => s!"max_beeline_distance must be positive, got {decimal metres}"
  | costLimit cost => s!"max_search_cost must be positive, got {decimal cost}"
  | noUsableZone => "no zone has a usable coordinate"

/-- Why a run failed. -/
inductive RunError (α : Type) where
  | config (fault : ConfigFault α)
  | window (error : InvalidWindow α)
  /-- A search over the roads from a zone. -/
  | road (zone : ZoneId) (error : RoadError α)
  | transit (error : TransitError α)
  | matrix (error : MatrixError)

def RunError.message {α : Type} [DecimalText α] : RunError α → String
  | config fault => s!"skim configuration error: {fault.message}"
  | window error => error.message
  | road zone error => s!"road search from zone {quote zone} failed: {error.message}"
  | transit error => s!"transit error: {error.message}"
  | matrix error => s!"matrix error: {error.message}"

structure Configuration (α : Type) where
  /-- The departures of the road matrices, which are averages over all of them. -/
  departures : List α
  /-- The departures of the transit matrices. -/
  window : Window α
  workers : Nat
  /-- Cells of zones further apart are not computed. -/
  maxBeeline : Option α
  /-- Nodes that cost more are not reached by road. -/
  costLimit : Option α
  /-- The sampling points that are drawn for each zone. -/
  pointsPerZone : Nat
  seed : UInt64
  router : RouterParameters α
  /-- The modes of routes that count as trains. -/
  trainModes : List Mode

namespace Configuration

variable {α : Type} [Scalar α]

/-- A departure at eight in the morning and the hour before it. -/
def standard (workers : Nat) : Configuration α :=
  { departures := [8.0 * 3600.0]
    window := { start := 7.0 * 3600.0, finish := 8.0 * 3600.0 }
    workers
    maxBeeline := none
    costLimit := none
    pointsPerZone := 5
    seed := 4711
    router := RouterParameters.standard
    trainModes := [.rail] }

/-- A limit that is undefined or not above 0. -/
def badLimit? (limit : Option α) : Option α :=
  limit.filter fun x => Scalar.isNaN x || decide (x ≤ 0)

/-- Refuses a configuration that nothing can be calculated with. -/
def validate (config : Configuration α) : Except (RunError α) Unit := do
  if config.workers = 0 then throw (.config .noWorkers)
  if config.departures.isEmpty then throw (.config .noDepartures)
  if let some time := config.departures.find? fun time => !Scalar.isFinite time then
    throw (.config (.departure time))
  config.window.validate.mapError .window
  if let some metres := badLimit? config.maxBeeline then throw (.config (.beelineLimit metres))
  if let some cost := badLimit? config.costLimit then throw (.config (.costLimit cost))
  config.router.validate.mapError .transit

omit [Scalar α] in
/-- Routes of a mode count as trains. -/
def countsAsTrain (config : Configuration α) (mode : Mode) : Bool :=
  config.trainModes.contains mode

end Configuration

/-- Runs that give notices and can fail. Notices given before a failure stay. -/
abbrev Run (α β : Type) : Type :=
  ExceptT (Failure (RunError α)) (StateM (List (Notice α))) β

namespace Run

variable {α β : Type}

/-- Gives a notice. -/
def notify (notice : Notice α) : Run α Unit :=
  ExceptT.lift (tell notice)

/-- The result of a calculation. -/
def ofOutcome (outcome : Outcome (RunError α) β) : Run α β :=
  ExceptT.mk (pure outcome)

/-- The result of a calculation whose faults are restated. -/
def orFault {ε : Type} (restate : ε → RunError α) (result : Except ε β) : Run α β :=
  ofOutcome (result.mapError fun error => .fault (restate error))

end Run

end ZoneSkims
