import ZoneSkims.Skim.Configuration
import ZoneSkims.Text.Json

/-!
# Values in documents

Modes, coordinates, windows, parameters and configurations are read from JSON documents. A record
is an object, or an array of its fields in their order. Fields with a standard value may be
missing.

* `Configuration.ofJson?`, `Configuration.parse?`: a configuration.
-/

namespace ZoneSkims

/-- The mode of an exact label, which may also be the name of the only field of an object without a
value. -/
def Mode.ofJson? : Json → Option Mode
  | .string (some text) => Mode.ofLabel? text.toList
  | .object [(some text, .null)] => Mode.ofLabel? text.toList
  | _ => none

/-- The set of the bits of a number below 2 ^ 16. -/
def ModeSet.ofJson? (value : Json) : Option ModeSet :=
  (fun n => ⟨UInt16.ofNat n⟩) <$> value.natural? 0xFFFF

/-- The id of a number below 2 ^ 32. -/
def Id.ofJson? {kind : IdKind} (value : Json) : Option (Id kind) :=
  Id.ofIndex <$> value.natural? 0xFFFFFFFF

variable {α : Type} [Scalar α]

def Coord.ofJson? (value : Json) : Option (Coord α) := do
  match ← value.record? ["x", "y"] with
  | [x, y] => return { x := ← Json.required? Json.scalar? x, y := ← Json.required? Json.scalar? y }
  | _ => none

/-- A window, whether it is valid or not. -/
def Window.ofJson? (value : Json) : Option (Window α) := do
  match ← value.record? ["start", "end"] with
  | [start, finish] =>
    return { start := ← Json.required? Json.scalar? start
             finish := ← Json.required? Json.scalar? finish }
  | _ => none

def RouterParameters.ofJson? (value : Json) : Option (RouterParameters α) := do
  let standard : RouterParameters α := RouterParameters.standard
  match ← value.record? ["max_transfers", "max_transfer_wait", "walk_speed",
      "beeline_walk_factor", "search_radius"] with
  | [transfers, wait, speed, factor, radius] =>
    return {
      maxTransfers :=
        ← Json.withStandard? (Json.natural? 0xFFFFFFFF) standard.maxTransfers transfers
      maxTransferWait := ← Json.withStandard? Json.scalar? standard.maxTransferWait wait
      walkSpeed := ← Json.withStandard? Json.scalar? standard.walkSpeed speed
      beelineWalkFactor := ← Json.withStandard? Json.scalar? standard.beelineWalkFactor factor
      searchRadius := ← Json.withStandard? Json.scalar? standard.searchRadius radius }
  | _ => none

namespace Configuration

/-- A configuration. `workers` is the number of workers when none is given. -/
def ofJson? (workers : Nat) (value : Json) : Option (Configuration α) := do
  let standard : Configuration α := Configuration.standard workers
  match ← value.record? ["departure_times", "pt_window", "num_threads", "max_beeline_distance",
      "max_search_cost", "points_per_zone", "seed", "raptor", "train_modes"] with
  | [departures, window, threads, beeline, cost, points, seed, router, modes] =>
    return {
      departures := ← Json.withStandard? (Json.list? Json.scalar?) standard.departures departures
      window := ← Json.withStandard? Window.ofJson? standard.window window
      workers := ← Json.withStandard? (Json.natural? wordMax) standard.workers threads
      maxBeeline := ← Json.withStandard? (Json.optional? Json.scalar?) standard.maxBeeline beeline
      costLimit :=
        ← Json.withStandard? (Json.optional? Json.scalar?) standard.costLimit cost
      pointsPerZone := ← Json.withStandard? (Json.natural? wordMax) standard.pointsPerZone points
      seed := UInt64.ofNat
        (← Json.withStandard? (Json.natural? wordMax) standard.seed.toNat seed)
      router := ← Json.withStandard? RouterParameters.ofJson? standard.router router
      trainModes := ← Json.withStandard? (Json.list? Mode.ofJson?) standard.trainModes modes }
  | _ => none

/-- The configuration of a document. -/
def parse? (workers : Nat) (document : String) : Option (Configuration α) :=
  Json.parse? document >>= ofJson? workers

end Configuration

end ZoneSkims
