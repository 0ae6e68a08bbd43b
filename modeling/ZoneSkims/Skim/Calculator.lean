import ZoneSkims.Skim.Beeline
import ZoneSkims.Skim.Road
import ZoneSkims.Skim.Transit

/-!
# Calculators

A calculator holds a checked configuration and the zones of a run. All its matrices have the same
ids in the same order.

* `Calculator.new`: the calculator of a configuration and the coordinates of zones.
* `Calculator.beeline`, `Calculator.road`, `Calculator.transit`: the matrices.
-/

namespace ZoneSkims

structure Calculator (α : Type) where
  config : Configuration α
  zones : Zones α
  pool : Pool

namespace Calculator

variable {α β : Type} [Scalar α]

/-- The calculator of a valid configuration and at least one zone with a usable coordinate. -/
def new (config : Configuration α) (coords : ZoneTable (List (Coord α))) :
    Run α (Calculator α) := do
  Run.orFault id config.validate
  let zones ← ExceptT.lift (Zones.new coords)
  if zones.isEmpty then throw (.fault (.config .noUsableZone))
  Run.notify (.started zones.size zones.pointCount config.workers)
  return { config, zones, pool := Pool.ofSize config.workers }

variable [Scalar β] [Narrowing α β]

/-- The mean beelines between the zones. -/
def beeline (calculator : Calculator α) : Run α (Matrix ZoneId β) :=
  beelineMatrix calculator.zones calculator.pool

/-- Travel time and distance by road, averaged over the departures. -/
def road (calculator : Calculator α) (search : RoadSearch α) :
    Run α (RoadMatrices ZoneId β) :=
  roadMatrices calculator.zones search calculator.config calculator.pool

/-- The transit averages, with a test for trains. -/
def transitWith (calculator : Calculator α) (timetable : Timetable α)
    (isTrain : Route α → Bool) : Run α (TransitMatrices ZoneId β) := do
  let router ← Run.orFault .transit
    (TransitRouter.new timetable calculator.config.router isTrain)
  transitMatrices calculator.zones router calculator.config calculator.pool

/-- The transit averages. Routes of the configured modes count as trains. -/
def transit (calculator : Calculator α) (timetable : Timetable α) :
    Run α (TransitMatrices ZoneId β) :=
  calculator.transitWith timetable fun route => calculator.config.countsAsTrain route.mode

end Calculator

end ZoneSkims
