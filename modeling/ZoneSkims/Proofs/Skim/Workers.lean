import ZoneSkims.Proofs.Skim.Road
import ZoneSkims.Scalar.Binary

/-!
# The number of workers does not matter

Rows are filled independently. Two calculators that differ only in their number of workers give the
same matrices, in whatever order the workers take their turns, or both fail because the work of a
row fails.

* `SameRuns`: two runs do the work of the same rows.
* `Calculator.workers_irrelevant`: calculators with different numbers of workers.
-/

namespace ZoneSkims

variable {α β γ δ : Type}

/-! ## Runs with the same work -/

/-- Two runs end in the same result, or both fail. They fail exactly when the work of a row does,
and when that is one row alone, its failure is that of both. -/
structure SameRuns (rows : Nat) (work : Nat → Outcome (RunError α) δ) (first second : Run α γ) :
    Prop where
  agree : ∀ log log', (∃ a, first.result log = .ok a ∧ second.result log' = .ok a) ∨
    ∃ e e', first.result log = .error e ∧ second.result log' = .error e'
  fails_iff : ∀ log log',
    ((∃ e, first.result log = .error e) ↔ ∃ row < rows, ∃ e, work row = .error e) ∧
      ((∃ e, second.result log' = .error e) ↔ ∃ row < rows, ∃ e, work row = .error e)
  only : ∀ log log', ∀ row < rows, ∀ e, work row = .error e →
    (∀ other < rows, other ≠ row → ∃ d, work other = .ok d) →
      first.result log = .error e ∧ second.result log' = .error e

theorem Run.Performs.sameRuns {rows : Nat} {work : Nat → Outcome (RunError α) δ}
    {first second : Run α γ} {value : γ} (h : Run.Performs work (List.range rows) first value)
    (h' : Run.Performs work (List.range rows) second value) : SameRuns rows work first second := by
  have hmem : ∀ {p : Nat → Prop}, (∃ row ∈ List.range rows, p row) ↔ ∃ row < rows, p row := by
    simp only [List.mem_range, implies_true]
  refine ⟨fun log log' => ?_, fun log log' => ?_, fun log log' row hrow e he honly => ?_⟩
  · rcases (h log).cases with ⟨hwork, hok⟩ | ⟨row, hrow, e, hw, herr⟩
    · exact .inl ⟨value, hok, (h' log').succeeds hwork⟩
    · obtain ⟨-, -, e', -, herr'⟩ := (h' log').fails row hrow e hw
      exact .inr ⟨e, e', herr, herr'⟩
  · rw [← hmem]
    exact ⟨(h log).fails_iff, (h' log').fails_iff⟩
  · have hrange : row ∈ List.range rows := List.mem_range.mpr hrow
    have honly' : ∀ other ∈ List.range rows, other ≠ row → ∃ d, work other = .ok d :=
      fun other hother => honly other (List.mem_range.mp hother)
    exact ⟨(h log).error_of_only hrange he honly', (h' log').error_of_only hrange he honly'⟩

/-! ## Beelines -/

variable [Scalar α] [Scalar β] [Narrowing α β] {zones : Zones α} {pool : Pool}

omit [Scalar β] in
theorem fits_beelineRow (zones : Zones α) :
    Fits (beelineRow (β := β) zones) zones.size zones.size 1 := by
  intro row _ cells hcells
  have hok : Ok (beelineRow (β := β) zones row) fun cells =>
      cells.length = zones.size ∧ ∀ values, some values ∈ cells → values.length = 1 := by
    refine Ok.bind (Ok.trivial _) fun origin _ => Ok.pure ⟨by simp [Zones.size], ?_⟩
    intro values hvalues
    obtain ⟨destination, -, hcell⟩ := List.mem_map.mp hvalues
    cases hcell
    rfl
  obtain ⟨hlength, hvalues⟩ := hok cells hcells
  exact ⟨hlength.le, hvalues⟩

/-- The work of a row of the beeline matrix. -/
def beelineWork (zones : Zones α) : Nat → Outcome (RunError α) (RowCells β) :=
  storable (beelineRow zones)

theorem beelineMatrix_performs (hids : zones.ids.toList.Nodup) (hpool : pool.Complete) :
    Run.Performs (beelineWork (β := β) zones) (List.range zones.size)
      (beelineMatrix (β := β) zones pool) ((Matrix.blank zones.ids).withCells fun row col =>
        valueAt (cellsOf (beelineRow zones) row) 0 col) := by
  have hsize : zones.ids.size = zones.size := Array.size_map
  have hfill := fillRows_blank_performs zones.ids hpool (by decide)
    (hsize.symm ▸ fits_beelineRow (β := β) zones)
  rw [hsize] at hfill
  have hempty : Matrix.square zones.ids = .ok (Matrix.blank (β := β) zones.ids) :=
    Matrix.square_eq_ok.mpr ⟨hids, rfl⟩
  refine Run.Performs.notify _ ?_
  rw [Run.orFault_ok hempty, pure_bind]
  exact (Run.Performs.ofOutcome hfill).map fun filled =>
    filled.head?.getD (Matrix.blank zones.ids)

/-! ## Transit -/

theorem length_transitCell (found : List (WindowAverages α)) :
    (transitCell (β := β) found).length = 9 := by
  have htotals : ∀ (found : List (WindowAverages α)) (totals : List α), totals.length = 9 →
      (found.foldl (fun totals s => List.zipWith (· + ·) totals s.values) totals).length = 9 := by
    intro found
    induction found with
    | nil => exact fun totals h => h
    | cons s found ih =>
      intro totals h
      exact ih _ (by simp [h, WindowAverages.values])
  unfold transitCell
  split
  · rfl
  · rw [List.length_map]
    exact htotals found _ (List.length_replicate ..)

variable {router : TransitRouter α} {config : Configuration α}

theorem fits_transitRow (zones : Zones α) (router : TransitRouter α) (config : Configuration α)
    (access : Array (List (List (NearStop α)))) :
    Fits (transitRow (β := β) zones access router config) zones.size zones.size 9 := by
  intro row _ cells hcells
  have hok : Ok (transitRow (β := β) zones access router config row) fun cells =>
      cells.length = zones.size ∧
        ∀ cell ∈ cells, ∀ values, cell = some values → values.length = 9 := by
    refine Ok.bind (Ok.trivial _) fun origins _ => Ok.bind (Ok.trivial _) fun trees _ => ?_
    refine (Ok.mapM fun col _ => ?_).mono fun cells h => ⟨by simpa using h.1, h.2⟩
    refine Ok.bind (Ok.trivial _) fun near _ => ?_
    split
    · refine Ok.bind (Ok.trivial _) fun egress _ => Ok.bind (Ok.trivial _) fun found _ => ?_
      refine Ok.pure fun values hvalues => ?_
      cases hvalues
      exact length_transitCell found
    · exact Ok.pure fun values hvalues => by cases hvalues
  obtain ⟨hlength, hvalues⟩ := hok cells hcells
  exact ⟨hlength.le, fun values h => hvalues _ h values rfl⟩

/-- The work of a row of transit matrices: the stops near all zones are found, and then the row is
filled. -/
def transitWork (zones : Zones α) (router : TransitRouter α) (config : Configuration α)
    (row : Nat) : Outcome (RunError α) (RowCells β) := do
  let access ← accessByZone zones router
  storable (transitRow zones access router config) row

/-- The matrices in which every cell is what the row of its origin gives it. -/
def transitMatricesOf (zones : Zones α) (access : Array (List (List (NearStop α))))
    (router : TransitRouter α) (config : Configuration α) : TransitMatrices ZoneId β :=
  (TransitMatrices.ofList? ((List.range 9).map fun k => (Matrix.blank zones.ids).withCells
    fun row col => valueAt (cellsOf (transitRow zones access router config) row) k col)).getD
      (TransitMatrices.replicate (Matrix.blank zones.ids))

variable (config) in
theorem transitMatrices_performs (hids : zones.ids.toList.Nodup) (hsize : 0 < zones.size)
    (hpool : pool.Complete) {value : TransitMatrices ZoneId β}
    (hvalue : ∀ access, accessByZone zones router = .ok access →
      value = transitMatricesOf zones access router config) :
    Run.Performs (transitWork (β := β) zones router config) (List.range zones.size)
      (transitMatrices zones router config pool) value := by
  have hne : List.range zones.size ≠ [] := by simpa using Nat.ne_of_gt hsize
  have hids' : zones.ids.size = zones.size := Array.size_map
  have hempty : TransitMatrices.new zones.ids =
      .ok (TransitMatrices.replicate (Matrix.blank (β := β) zones.ids)) := by
    have h : Matrix.square zones.ids = .ok (Matrix.blank (β := β) zones.ids) :=
      Matrix.square_eq_ok.mpr ⟨hids, rfl⟩
    rw [TransitMatrices.new, h]
    rfl
  refine Run.Performs.notify _ (Run.Performs.prepared hne fun access haccess => ?_)
  rw [hvalue access (lift_eq_ok.mp haccess)]
  have hfill := fillRows_blank_performs zones.ids hpool (by decide)
    (hids'.symm ▸ fits_transitRow (β := β) zones router config access)
  rw [hids'] at hfill
  rw [Run.orFault_ok hempty, pure_bind]
  exact (Run.Performs.ofOutcome hfill).map fun filled =>
    (TransitMatrices.ofList? filled).getD (TransitMatrices.replicate (Matrix.blank zones.ids))

/-- Transit matrices are the same for every pool. -/
theorem exists_transitMatrices (hids : zones.ids.toList.Nodup) (hsize : 0 < zones.size)
    (router : TransitRouter α) (config : Configuration α) :
    ∃ value : TransitMatrices ZoneId β, ∀ (workers : Nat) (pool : Pool), pool.Complete →
      Run.Performs (transitWork (β := β) zones router config) (List.range zones.size)
        (transitMatrices zones router { config with workers } pool) value := by
  cases haccess : accessByZone zones router with
  | error e =>
    refine ⟨TransitMatrices.replicate (Matrix.blank zones.ids), fun workers pool hpool => ?_⟩
    exact transitMatrices_performs { config with workers } hids hsize hpool
      fun access h => by rw [haccess] at h; cases h
  | ok access =>
    refine ⟨transitMatricesOf zones access router config, fun workers pool hpool => ?_⟩
    exact transitMatrices_performs { config with workers } hids hsize hpool
      fun access' h => by rw [haccess] at h; cases h; rfl

/-- Road matrices are the same for every pool. -/
theorem exists_roadMatrices (hids : zones.ids.toList.Nodup) (hsize : 0 < zones.size)
    (hdepartures : config.departures ≠ []) (search : RoadSearch α) :
    ∃ value : RoadMatrices ZoneId β, ∀ (workers : Nat) (pool : Pool), pool.Complete →
      Run.Performs (roadWork (β := β) zones search config) (List.range zones.size)
        (roadMatrices zones search { config with workers } pool) value := by
  cases hsnapped : nodesOfZones zones search.network with
  | error e =>
    refine ⟨RoadMatrices.blank zones.ids, fun workers pool hpool => ?_⟩
    exact roadMatrices_performs { config with workers } hids hsize hpool hdepartures
      fun snapped h => by rw [hsnapped] at h; cases h
  | ok snapped =>
    refine ⟨averagesWith zones snapped search config, fun workers pool hpool => ?_⟩
    exact roadMatrices_performs { config with workers } hids hsize hpool hdepartures
      fun snapped' h => by rw [hsnapped] at h; cases h; rfl

/-! ## Calculators -/

namespace Calculator

/-- The calculator with the turns of its workers in another order. -/
def withTurns (calculator : Calculator α) (turns : List Nat) : Calculator α :=
  { calculator with pool := { calculator.pool with turns } }

variable {coords : ZoneTable (List (Coord α))} {first second : Calculator α}
  {log log' : List (Notice α)} {turns turns' : List Nat} {workers : Nat}

omit [Scalar β] [Narrowing α β] in
theorem Made.complete (h : Made config coords first)
    (hturns : turns.Perm (List.range first.pool.workers)) :
    (first.withTurns turns).pool.Complete := by
  refine ⟨?_, hturns⟩
  change 0 < first.pool.workers
  rw [h.pool_eq]
  exact Nat.lt_min.mpr ⟨Nat.pos_of_ne_zero h.valid.workers_ne_zero, by decide⟩

omit [Scalar β] [Narrowing α β] in
theorem Made.nodup_ids (h : Made config coords first) (hcoords : (coords.map Prod.fst).Nodup) :
    first.zones.ids.toList.Nodup := by
  rw [Zones.ids, h.zones_eq, List.map_toArray]
  exact (Zones.ids_ofTable coords).nodup hcoords

variable (router) in
theorem transit_eq {calculator : Calculator α} {timetable : Timetable α}
    (hrouter : TransitRouter.new timetable calculator.config.router
      (fun route => calculator.config.countsAsTrain route.mode) = .ok router) :
    calculator.transit (β := β) timetable =
      transitMatrices calculator.zones router calculator.config calculator.pool := by
  rw [transit, transitWith, Run.orFault_ok hrouter, pure_bind]

variable (β) in
/-- Two calculators with the same zones give the same matrices, or fail alike. -/
structure Alike (config : Configuration α) (first second : Calculator α) : Prop where
  beeline : SameRuns first.zones.size (beelineWork (β := β) first.zones)
    (first.beeline (β := β)) second.beeline
  road : ∀ search, SameRuns first.zones.size (roadWork (β := β) first.zones search config)
    (first.road (β := β) search) (second.road search)
  transit : ∀ timetable, ∃ router,
    TransitRouter.new timetable config.router (fun route => config.countsAsTrain route.mode) =
      .ok router ∧
    SameRuns first.zones.size (transitWork (β := β) first.zones router config)
      (first.transit (β := β) timetable) (second.transit timetable)

/-- The matrices of a calculator do not depend on the number of its workers, nor on the order of
their turns. -/
theorem workers_irrelevant (hcoords : (coords.map Prod.fst).Nodup)
    (hfirst : (Calculator.new config coords).result log = .ok first)
    (hsecond : (Calculator.new { config with workers } coords).result log' = .ok second)
    (hturns : turns.Perm (List.range first.pool.workers))
    (hturns' : turns'.Perm (List.range second.pool.workers)) :
    Alike β config (first.withTurns turns) (second.withTurns turns') := by
  have made := made_of_new hfirst
  have made' := made_of_new hsecond
  have hpool := made.complete hturns
  have hpool' := made'.complete hturns'
  have hids := made.nodup_ids hcoords
  have hzones : second.zones = first.zones := made'.zones_eq.trans made.zones_eq.symm
  refine ⟨?_, fun search => ?_, fun timetable => ?_⟩
  · rw [beeline, beeline, withTurns, withTurns, hzones]
    exact (beelineMatrix_performs hids hpool).sameRuns (beelineMatrix_performs hids hpool')
  · obtain ⟨value, hvalue⟩ := exists_roadMatrices (β := β) hids made.nonempty
      made.valid.departures_ne_nil search
    have hrun := (hvalue config.workers _ hpool).sameRuns (hvalue workers _ hpool')
    rw [road, road, withTurns, withTurns, hzones, made.config_eq, made'.config_eq]
    exact hrun
  · obtain ⟨router, hrouter⟩ : ∃ router, TransitRouter.new timetable config.router
        (fun route => config.countsAsTrain route.mode) = .ok router := by
      rw [TransitRouter.new, made.valid.router]
      exact ⟨_, rfl⟩
    obtain ⟨value, hvalue⟩ := exists_transitMatrices (β := β) hids made.nonempty router config
    have hrun := (hvalue config.workers _ hpool).sameRuns (hvalue workers _ hpool')
    refine ⟨router, hrouter, ?_⟩
    rw [transit_eq router (by rwa [withTurns, made.config_eq]),
      transit_eq router (by rwa [withTurns, made'.config_eq]), withTurns, withTurns, hzones,
      made.config_eq, made'.config_eq]
    exact hrun

end Calculator

/-! ## Two villages -/

/-- Two villages of a point each, and a third one without any. -/
def villages : ZoneTable (List (Coord Float)) :=
  [("east", [⟨600, 800⟩]), ("north", []), ("west", [⟨0, 0⟩])]

theorem valid_standard (workers : Nat) (h : workers ≠ 0) :
    (Configuration.standard workers : Configuration Float).Valid := by
  have hwindow : ({ start := 7.0 * 3600.0, finish := 8.0 * 3600.0 } : Window Float).isValid =
      true := by decide +kernel
  have hnumber : Scalar.isNaN (3600.0 : Float) = false := by decide +kernel
  have hrouter : (RouterParameters.standard : RouterParameters Float).validate = .ok () :=
    RouterParameters.validate_eq_ok (by decide +kernel) (by decide +kernel) (by decide +kernel)
      hnumber (by decide +kernel)
  refine ⟨h, List.cons_ne_nil _ _, ?_, hwindow, nofun, nofun, hrouter⟩
  simp only [Configuration.standard, List.mem_singleton, forall_eq]
  decide +kernel

theorem ids_villages : (Zones.ofTable villages).map Zone.id = ["east", "west"] := by
  decide +kernel

/-- One worker alone, and three of them who do not start with the first rows. -/
theorem workers_irrelevant_villages : ∃ alone three : Calculator Float,
    (villages.map Prod.fst).Nodup ∧
      (Calculator.new (Configuration.standard 1) villages).result [] = .ok alone ∧
      (Calculator.new (Configuration.standard 3) villages).result [] = .ok three ∧
      [0].Perm (List.range alone.pool.workers) ∧ [2, 0, 1].Perm (List.range three.pool.workers) ∧
      Calculator.Alike Float32 (Configuration.standard 1) (alone.withTurns [0])
        (three.withTurns [2, 0, 1]) := by
  have hnodup : (villages.map Prod.fst).Nodup := by decide
  have hne : Zones.ofTable villages ≠ [] := by
    intro h
    have hids := ids_villages
    rw [h] at hids
    cases hids
  obtain ⟨alone, halone⟩ :=
    Calculator.exists_of_valid (valid_standard 1 (by decide)) hne []
  obtain ⟨three, hthree⟩ :=
    Calculator.exists_of_valid (valid_standard 3 (by decide)) hne []
  have hturns : [0].Perm (List.range alone.pool.workers) := by
    rw [(Calculator.made_of_new halone).pool_eq]
    decide
  have hturns' : [2, 0, 1].Perm (List.range three.pool.workers) := by
    rw [(Calculator.made_of_new hthree).pool_eq]
    decide
  exact ⟨alone, three, hnodup, halone, hthree, hturns, hturns',
    Calculator.workers_irrelevant hnodup halone hthree hturns hturns'⟩

end ZoneSkims
