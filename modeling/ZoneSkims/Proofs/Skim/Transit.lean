import ZoneSkims.Proofs.Skim.Summaries
import ZoneSkims.Proofs.Skim.Workers

/-!
# Coherent transit matrices

In exact arithmetic, what a run stores for two zones with a connection fits together: there is a
connection at least, nobody waits longer for it than the window lasts, walks are no longer than the
whole way, there are no more changes than allowed, and trains have a share between 0 and 1. This is
carried from the arrivals of a tree through its connections, the averages over the window and the
means over all pairs of points.

* `cell_of_near`, `values_of_transitRow`: the cells of a row.
* `transitMatrices_of_run`: the matrices of a run that succeeds hold what its rows give.
* `TransitMatrices.Coherent`: the cells of two zones fit together.
* `Calculator.transit_coherent`: the main result.
-/

namespace ZoneSkims

open Exact

/-! ## Runs -/

section Runs

variable {α β : Type} [Scalar α] [Scalar β] [Narrowing α β] {zones : Zones α}
  {access : Array (List (List (NearStop α)))} {router : TransitRouter α} {config : Configuration α}
  {pool : Pool} {row col : Nat} {origin destination : Zone α}

omit [Scalar β] [Narrowing α β] in
theorem nearStops_of_fetch (haccess : accessByZone zones router = .ok access)
    (horigin : zones.zones[row]? = some origin) {stops : List (List (NearStop α))}
    (hstops : (fetch access row : Checked _) = .ok stops) :
    origin.points.mapM router.nearStops = .ok stops :=
  eq_ok_of_mapM_array haccess horigin (fetch_eq_ok.mp hstops)

/-- The cells of a row are computed from all pairs of points, for zones that are near. -/
theorem cell_of_near {cells : RowCells β} (haccess : accessByZone zones router = .ok access)
    (horigin : zones.zones[row]? = some origin)
    (hdestination : zones.zones[col]? = some destination)
    (hcells : transitRow zones access router config row = .ok cells) :
    if origin.isNear config.maxBeeline destination then
      ∃ found, router.Summarizes config.window origin destination found ∧
        cells[col]? = some (some (transitCell found))
    else cells[col]? = some none := by
  obtain ⟨origins, horigins, hcells⟩ := bind_eq_ok.mp hcells
  obtain ⟨trees, htrees, hcells⟩ := bind_eq_ok.mp hcells
  have hall := mapM_eq_ok_iff.mp hcells
  have hcol : col < zones.size := (Array.getElem?_eq_some_iff.mp hdestination).1
  have hlength : cells.length = zones.size := by simpa using hall.length_eq.symm
  have hcell := hall.get (i := col) (by simpa using hcol) (hlength ▸ hcol)
  rw [List.get_eq_getElem, List.getElem_range] at hcell
  rw [List.getElem?_eq_getElem (hlength ▸ hcol)]
  obtain ⟨near, hnear, hcell⟩ := bind_eq_ok.mp hcell
  obtain rfl : origin.isNear config.maxBeeline destination = near :=
    Except.ok.inj ((within_eq _ horigin hdestination).symm.trans (lift_eq_ok.mp hnear))
  cases hnear' : origin.isNear config.maxBeeline destination with
  | false =>
    rw [hnear'] at hcell
    exact congrArg some (Except.ok.inj hcell).symm
  | true =>
    rw [hnear'] at hcell
    obtain ⟨egress, hegress, hcell⟩ := bind_eq_ok.mp hcell
    obtain ⟨found, hfound, hcell⟩ := bind_eq_ok.mp hcell
    refine ⟨found, ⟨origins, trees, egress, ?_, ?_, ?_, lift_eq_ok.mp hfound⟩,
      congrArg some (Except.ok.inj hcell).symm⟩
    · exact nearStops_of_fetch haccess horigin (lift_eq_ok.mp horigins)
    · exact nearStops_of_fetch haccess hdestination (lift_eq_ok.mp hegress)
    · exact mapM_eq_ok_iff.mpr ((mapM_eq_ok_iff.mp htrees).imp fun _ _ => lift_eq_ok.mp)

/-- The cells of a row are left out or computed from all pairs of points. -/
theorem cell_of_transitRow {cells : RowCells β}
    (haccess : accessByZone zones router = .ok access)
    (horigin : zones.zones[row]? = some origin)
    (hdestination : zones.zones[col]? = some destination)
    (hcells : transitRow zones access router config row = .ok cells) :
    cells[col]? = some none ∨ ∃ found, router.Summarizes config.window origin destination found ∧
      cells[col]? = some (some (transitCell found)) := by
  have hcell := cell_of_near haccess horigin hdestination hcells
  split at hcell
  · exact .inr hcell
  · exact .inl hcell

/-- When one of the values of a cell is stored, all of them are those of the same pairs of
points. -/
theorem values_of_transitRow {k : Nat} {value : β}
    (haccess : accessByZone zones router = .ok access)
    (horigin : zones.zones[row]? = some origin)
    (hdestination : zones.zones[col]? = some destination)
    (hvalue : valueAt (cellsOf (transitRow zones access router config) row) k col = some value) :
    ∃ found, router.Summarizes config.window origin destination found ∧
      ∀ k, valueAt (cellsOf (transitRow (β := β) zones access router config) row) k col =
        (transitCell found)[k]? := by
  cases hrow : storable (transitRow (β := β) zones access router config) row with
  | error e =>
    rw [cellsOf, hrow, valueAt_nil] at hvalue
    cases hvalue
  | ok cells =>
    rw [cellsOf_eq hrow] at hvalue ⊢
    rcases cell_of_transitRow haccess horigin hdestination (storable_eq_ok hrow).1 with
      hcell | ⟨found, hfound, hcell⟩
    · rw [valueAt, hcell] at hvalue
      cases hvalue
    · refine ⟨found, hfound, fun k => ?_⟩
      rw [valueAt, hcell]
      rfl

/-- The matrices of a run that succeeds hold what its rows give, and every row was filled. -/
theorem transitMatrices_of_run (hids : zones.ids.toList.Nodup) (hsize : 0 < zones.size)
    (hpool : pool.Complete) {log : List (Notice α)} {matrices : TransitMatrices ZoneId β}
    (h : (transitMatrices zones router config pool).result log = .ok matrices) :
    ∃ access, accessByZone zones router = .ok access ∧
      matrices = transitMatricesOf zones access router config ∧
      ∀ row < zones.size, ∃ cells,
        storable (transitRow (β := β) zones access router config) row = .ok cells := by
  obtain ⟨value, hvalue⟩ : ∃ value : TransitMatrices ZoneId β, ∀ access,
      accessByZone zones router = .ok access →
        value = transitMatricesOf zones access router config := by
    cases accessByZone zones router with
    | error e => exact ⟨TransitMatrices.replicate (Matrix.blank zones.ids), nofun⟩
    | ok access => exact ⟨_, fun _ haccess => by cases haccess; rfl⟩
  rcases (transitMatrices_performs config hids hsize hpool hvalue log).cases with
    ⟨hwork, hok⟩ | ⟨-, -, e, -, herror⟩
  · obtain ⟨rows, hrows⟩ := hwork 0 (List.mem_range.mpr hsize)
    obtain ⟨access, haccess, -⟩ := bind_eq_ok.mp hrows
    rw [lift_eq_ok] at haccess
    have hsame : matrices = value := Except.ok.inj (h.symm.trans hok)
    refine ⟨access, haccess, hsame.trans (hvalue access haccess), fun row hrow => ?_⟩
    obtain ⟨cells, hcells⟩ := hwork row (List.mem_range.mpr hrow)
    rw [transitWork, haccess] at hcells
    exact ⟨cells, hcells⟩
  · rw [h] at herror
    cases herror

variable (zones access router config) in
/-- Every matrix has the values of its place in the cells of the rows. -/
theorem toList_transitMatricesOf :
    (transitMatricesOf (β := β) zones access router config).toList =
      (List.range 9).map fun k => (Matrix.blank zones.ids).withCells fun row col =>
        valueAt (cellsOf (transitRow zones access router config) row) k col := rfl

variable (access router config) in
/-- The cells of two zones are the values that the row of the origin gives. -/
theorem get?_transitMatricesOf (hids : zones.ids.toList.Nodup)
    (horigin : zones.zones[row]? = some origin)
    (hdestination : zones.zones[col]? = some destination) :
    (transitMatricesOf (β := β) zones access router config).toList.map
        (fun m => m.get? origin.id destination.id) =
      (List.range 9).map fun k =>
        valueAt (cellsOf (transitRow (β := β) zones access router config) row) k col := by
  have horigin := Zones.getElem?_ids horigin
  have hdestination := Zones.getElem?_ids hdestination
  rw [toList_transitMatricesOf, List.map_map]
  refine List.map_congr_left fun k _ => ?_
  exact (Matrix.get?_eq_cell hids hids horigin hdestination).trans (Matrix.cell_withCells
    (Array.getElem?_eq_some_iff.mp horigin).1 (Array.getElem?_eq_some_iff.mp hdestination).1)

end Runs

/-! ## Calculators -/

variable {K : Type} [Field K] [LinearOrder K]

/-- The cells of two zones with a connection fit together. -/
structure TransitMatrices.Coherent (m : TransitMatrices ZoneId (Exact K))
    (config : Configuration (Exact K)) (origin destination : ZoneId) : Prop where
  frequency : ∃ f : K, m.frequency.get? origin destination = some (finite f) ∧ 1 ≤ f
  adaptionTime : ∃ t : K, m.adaptionTime.get? origin destination = some (finite t) ∧
    0 ≤ t ∧ finite t ≤ config.window.duration
  times : ∃ travel access egress : K,
    m.travelTime.get? origin destination = some (finite travel) ∧
    m.accessTime.get? origin destination = some (finite access) ∧
    m.egressTime.get? origin destination = some (finite egress) ∧ access + egress ≤ travel
  transferCount : ∃ n : K, m.transferCount.get? origin destination = some (finite n) ∧
    0 ≤ n ∧ n ≤ config.router.maxTransfers
  distance : ∃ metres, m.distance.get? origin destination = some metres ∧ 0 ≤ metres
  trainTimeShare : ∃ share : K, m.trainTimeShare.get? origin destination = some (finite share) ∧
    0 ≤ share ∧ share ≤ 1
  trainDistanceShare : ∃ share : K,
    m.trainDistanceShare.get? origin destination = some (finite share) ∧ 0 ≤ share ∧ share ≤ 1

variable [IsStrictOrderedRing K]

theorem TransitMatrices.coherent_of_values {m : TransitMatrices ZoneId (Exact K)}
    {config : Configuration (Exact K)} {origin destination : ZoneId} {start finish : K}
    {mean : WindowAverages (Exact K)} (hwindow : config.window = ⟨finite start, finite finish⟩)
    (hcells : m.toList.map (fun m => m.get? origin destination) = mean.values.map some)
    (hnumbers : ∀ value ∈ mean.values, Scalar.IsNumber value)
    (hmean : mean.Coherent (finish - start) config.router.maxTransfers 1 1) :
    m.Coherent config origin destination := by
  simp only [toList, WindowAverages.values, List.map_cons, List.map_nil, List.cons.injEq,
    and_true] at hcells
  obtain ⟨hadaption, hfrequency, hdistance, htravel, haccess, hegress, htransfers, htime,
    hmetres⟩ := hcells
  simp only [WindowAverages.values, List.forall_mem_cons, List.not_mem_nil, false_imp_iff,
    implies_true, and_true] at hnumbers
  obtain ⟨nadaption, -, ndistance, -, -, -, ntransfers, ntime, nmetres⟩ := hnumbers
  obtain ⟨f, hf, hcount⟩ := hmean.frequency
  obtain ⟨travel, access, egress, htravel', haccess', hegress', hwalks⟩ := hmean.times
  obtain ⟨t, ht, hzero, hmost⟩ := hmean.adaptionTime.exists_of_isNumber nadaption
  obtain ⟨n, hn, hnone, hmax⟩ := hmean.transfers.exists_of_isNumber ntransfers
  obtain ⟨time, htime', htimes⟩ := hmean.trainTimeShare.exists_of_isNumber ntime
  obtain ⟨metres, hmetres', hshare⟩ := hmean.trainDistanceShare.exists_of_isNumber nmetres
  rw [one_mul] at hmost hmax
  have hduration : config.window.duration = finite (finish - start) := by
    rw [hwindow]
    exact finite_sub finish start
  exact {
    frequency := ⟨f, hf ▸ hfrequency, hcount⟩
    adaptionTime := ⟨t, ht ▸ hadaption, hzero, hduration ▸ finite_le.mpr hmost⟩
    times := ⟨travel, access, egress, htravel' ▸ htravel, haccess' ▸ haccess, hegress' ▸ hegress,
      hwalks⟩
    transferCount := ⟨n, hn ▸ htransfers, hnone, hmax⟩
    distance := ⟨_, hdistance, Scalar.le_of_not_lt ndistance rfl hmean.distance⟩
    trainTimeShare := ⟨time, htime' ▸ htime, htimes⟩
    trainDistanceShare := ⟨metres, hmetres' ▸ hmetres, hshare⟩ }

/-- In exact arithmetic, what a calculator stores for two zones with a connection fits together. -/
theorem Calculator.transit_coherent {config : Configuration (Exact K)}
    {coords : ZoneTable (List (Coord (Exact K)))} {calculator : Calculator (Exact K)}
    {log log' : List (Notice (Exact K))} {turns : List Nat} {draft : TimetableDraft (Exact K)}
    {timetable : Timetable (Exact K)} {isTrain : Route (Exact K) → Bool}
    {router : TransitRouter (Exact K)} {matrices : TransitMatrices ZoneId (Exact K)}
    {origin destination : Zone (Exact K)} (hcoords : (coords.map Prod.fst).Nodup)
    (hnew : (Calculator.new config coords).result log = .ok calculator)
    (hturns : turns.Perm (List.range calculator.pool.workers))
    (hdraft : draft.Drafted) (hbuild : draft.build = .ok timetable)
    (hrouter : TransitRouter.new timetable config.router isTrain = .ok router)
    (hrun : ((calculator.withTurns turns).transitWith timetable isTrain).result log' =
      .ok matrices)
    (horigin : origin ∈ calculator.zones.zones)
    (hdestination : destination ∈ calculator.zones.zones)
    (hcomputed : ∃ m ∈ matrices.toList, (m.get? origin.id destination.id).isSome = true)
    (hconnects : ∃ source ∈ origin.points, ∃ target ∈ destination.points,
      router.Connects config.window source target) :
    matrices.Coherent config origin.id destination.id := by
  have made := made_of_new hnew
  have hids := made.nodup_ids hcoords
  obtain ⟨start, finish, hwindow, hlt⟩ := Window.eq_finite_of_isValid made.valid.window
  obtain ⟨hvalid, hrouter'⟩ := TransitRouter.eq_of_new hrouter
  rw [transitWith, withTurns, made.config_eq, Run.orFault_ok hrouter, pure_bind] at hrun
  obtain ⟨access, haccess, rfl, -⟩ :=
    transitMatrices_of_run hids made.nonempty (made.complete hturns) hrun
  obtain ⟨row, hrow⟩ := Array.getElem?_of_mem horigin
  obtain ⟨col, hcol⟩ := Array.getElem?_of_mem hdestination
  have hcells := get?_transitMatricesOf (β := Exact K) access router config hids hrow hcol
  -- A computed cell was filled with the means over all pairs of points.
  obtain ⟨m, hm, hsome⟩ := hcomputed
  obtain ⟨k, -, hk⟩ := List.mem_map.mp (hcells ▸ List.mem_map_of_mem hm)
  obtain ⟨value, hvalue⟩ := Option.isSome_iff_exists.mp hsome
  obtain ⟨found, hfound, hvalues⟩ := values_of_transitRow haccess hrow hcol (hk.trans hvalue)
  obtain ⟨source, hsource, target, htarget, hconnects⟩ := hconnects
  have hne := hfound.ne_nil hsource htarget hconnects
  rw [hwindow] at hfound
  subst hrouter'
  obtain ⟨mean, hmean, hcoherent⟩ :=
    transitCell_coherent hne (hfound.coherent (hdraft.forward_build hbuild) hvalid hlt)
  simp only [hvalues, hmean] at hcells
  refine TransitMatrices.coherent_of_values hwindow hcells (fun value hmem => ?_) hcoherent
  obtain ⟨i, hi⟩ := List.getElem?_of_mem hmem
  rw [← hmean] at hi
  exact isNumber_of_valueAt ((hvalues i).trans hi)

/-! ## The ends of a line -/

/-- A zone at each end of the second line. -/
def termini : ZoneTable (List (Coord (Exact ℚ))) :=
  [("a", [⟨finite 0, finite 0⟩]), ("c", [⟨finite 0, finite 8000⟩])]

noncomputable def terminiZones : Zones (Exact ℚ) :=
  { zones := (Zones.ofTable termini).toArray
    dropped := termini.length - (Zones.ofTable termini).length }

/-- The second line leaves in the window, and nobody walks further than to the door. -/
noncomputable def duringSecondLine : Configuration (Exact ℚ) :=
  { Configuration.standard 1 with
    window := ⟨finite 1000, finite 4000⟩
    router := { unhurried with searchRadius := finite 100 } }

def isSecondLine (route : Route (Exact ℚ)) : Bool := route.line == "B"

noncomputable def terminiRouter : TransitRouter (Exact ℚ) :=
  { timetable := twoLinesTimetable, parameters := duringSecondLine.router
    isTrain := #[false, true] }

/-- The stops at the doors of both zones. -/
def terminiAccess : Array (List (List (NearStop (Exact ℚ)))) :=
  #[[[⟨⟨0⟩, finite 0⟩]], [[⟨⟨2⟩, finite 0⟩]]]

theorem valid_duringSecondLine : duringSecondLine.Valid :=
  Configuration.valid_of_isSome (by decide +kernel)

theorem new_termini :
    TransitRouter.new twoLinesTimetable duringSecondLine.router isSecondLine =
      .ok terminiRouter := by
  refine TransitRouter.new_eq ?_ (by simp [twoLinesTimetable, isSecondLine])
  rw [valid_duringSecondLine.router]
  rfl

/-- Nobody walks to a stop at the door. -/
theorem nearStops_termini {place : Coord (Exact ℚ)} {i : Nat}
    (h : Coord.within twoLinesTimetable.stops.toList place (finite 100 * finite 100) = [(i, 0)]) :
    terminiRouter.nearStops place = .ok [⟨Id.ofIndex i, finite 0⟩] := by
  have hnear : terminiRouter.timetable.stopsWithin place
      terminiRouter.parameters.searchRadius = [(Id.ofIndex i, 0)] := by
    change (List.map _ (Coord.within twoLinesTimetable.stops.toList place
      (finite 100 * finite 100))).mergeSort _ = _
    rw [h, List.map_singleton, List.mergeSort_singleton]
    exact congrArg (fun distance => [(Id.ofIndex i, distance)]) sqrt_zero
  have hwalk : terminiRouter.parameters.walkTime 0 = finite 0 := by decide +kernel
  rw [← hwalk, TransitRouter.nearStops, hnear]
  rfl

theorem nearStops_first :
    terminiRouter.nearStops ⟨finite 0, finite 0⟩ = .ok [⟨⟨0⟩, finite 0⟩] :=
  nearStops_termini (by decide +kernel)

theorem nearStops_third :
    terminiRouter.nearStops ⟨finite 0, finite 8000⟩ = .ok [⟨⟨2⟩, finite 0⟩] :=
  nearStops_termini (by decide +kernel)

theorem accessByZone_termini :
    accessByZone terminiZones terminiRouter = .ok terminiAccess := by
  have hzones : terminiZones.zones.toList =
      [⟨"a", [⟨finite 0, finite 0⟩], terminiZones.zones[0].centroid⟩,
        ⟨"c", [⟨finite 0, finite 8000⟩], terminiZones.zones[1].centroid⟩] := rfl
  rw [accessByZone, Array.mapM_eq_mapM_toList, hzones]
  simp only [List.mapM_cons, List.mapM_nil, nearStops_first, nearStops_third]
  rfl

/-- Who leaves at 2000 catches the second line. -/
theorem connects_termini : terminiRouter.Connects duringSecondLine.window
    ⟨finite 0, finite 0⟩ ⟨finite 0, finite 8000⟩ := by
  have hfound : ((terminiRouter.trees [⟨⟨0⟩, finite 0⟩]
      duringSecondLine.window).toOption.any fun trees => decide ((trees.any fun tree =>
        (tree.connection? [⟨⟨2⟩, finite 0⟩]).any fun c =>
          decide (c.arrival < Scalar.infinity)) = true)) = true := by
    decide +kernel
  obtain ⟨trees, htrees, hany⟩ := exists_of_any hfound
  obtain ⟨tree, htree, hconnection⟩ := List.any_eq_true.mp hany
  obtain ⟨c, hc, harrives⟩ := (Option.any_eq_true _ _).mp hconnection
  exact ⟨_, _, trees, tree, c, nearStops_first, nearStops_third, htrees, htree, hc,
    of_decide_eq_true harrives⟩

/-- The rows of both zones can be filled. -/
theorem exists_row_termini : ∀ row < 2, ∃ cells,
    transitWork (β := Exact ℚ) terminiZones terminiRouter duringSecondLine row =
      .ok cells := by
  have hfilled : ((List.range 2).all fun row => (storable (transitRow (β := Exact ℚ)
      terminiZones terminiAccess terminiRouter duringSecondLine)
        row).toOption.isSome) = true := by
    decide +kernel
  intro row hrow
  obtain ⟨cells, hcells⟩ :=
    exists_of_isSome (List.all_eq_true.mp hfilled row (List.mem_range.mpr hrow))
  rw [transitWork, accessByZone_termini]
  exact ⟨cells, hcells⟩

/-- All the way from one end to the other is by train. -/
theorem transit_coherent_termini : ∃ (calculator : Calculator (Exact ℚ))
    (draft : TimetableDraft (Exact ℚ)) (matrices : TransitMatrices ZoneId (Exact ℚ))
    (origin destination : Zone (Exact ℚ)), (termini.map Prod.fst).Nodup ∧
      (Calculator.new duringSecondLine termini).result [] = .ok calculator ∧
      [0].Perm (List.range calculator.pool.workers) ∧
      draft.Drafted ∧ draft.build = .ok twoLinesTimetable ∧
      TransitRouter.new twoLinesTimetable duringSecondLine.router isSecondLine =
        .ok terminiRouter ∧
      ((calculator.withTurns [0]).transitWith twoLinesTimetable isSecondLine).result [] =
        .ok matrices ∧
      origin ∈ calculator.zones.zones ∧ destination ∈ calculator.zones.zones ∧
      origin.id = "a" ∧ destination.id = "c" ∧
      (∃ m ∈ matrices.toList, (m.get? origin.id destination.id).isSome = true) ∧
      (∃ source ∈ origin.points, ∃ target ∈ destination.points,
        terminiRouter.Connects duringSecondLine.window source target) ∧
      matrices.Coherent duringSecondLine origin.id destination.id := by
  obtain ⟨draft, hdraft, hbuild⟩ := drafted_twoLines
  have husable : (Zones.ofTable termini).map Zone.id = ["a", "c"] := by decide +kernel
  obtain ⟨calculator, hnew⟩ :=
    Calculator.exists_of_valid valid_duringSecondLine (Zones.ne_nil_of_ids husable) []
  have made := Calculator.made_of_new hnew
  have hcoords : (termini.map Prod.fst).Nodup := by decide
  have hids := made.nodup_ids hcoords
  have hturns : [0].Perm (List.range calculator.pool.workers) := by
    rw [made.pool_eq]
    decide
  have hzones : calculator.zones = terminiZones := made.zones_eq
  have hrun : ((calculator.withTurns [0]).transitWith twoLinesTimetable isSecondLine).result [] =
      .ok (transitMatricesOf (β := Exact ℚ) terminiZones terminiAccess terminiRouter
        duringSecondLine) := by
    rw [hzones] at hids
    rw [Calculator.transitWith, Calculator.withTurns, made.config_eq, Run.orFault_ok new_termini,
      pure_bind, hzones]
    refine (transitMatrices_performs duringSecondLine hids (by decide) (made.complete hturns)
      (fun access haccess => ?_) []).succeeds fun row hrow =>
        exists_row_termini row (List.mem_range.mp hrow)
    cases accessByZone_termini.symm.trans haccess
    rfl
  have hcomputed : ((transitMatricesOf (β := Exact ℚ) terminiZones terminiAccess
      terminiRouter duringSecondLine).toList.any fun m => (m.get? "a" "c").isSome) = true := by
    decide +kernel
  have horigin : terminiZones.zones[0] ∈ calculator.zones.zones := by
    rw [hzones]
    exact Array.getElem_mem _
  have hdestination : terminiZones.zones[1] ∈ calculator.zones.zones := by
    rw [hzones]
    exact Array.getElem_mem _
  have hconnects : ∃ source ∈ terminiZones.zones[0].points,
      ∃ target ∈ terminiZones.zones[1].points,
        terminiRouter.Connects duringSecondLine.window source target :=
    ⟨_, List.mem_cons_self, _, List.mem_cons_self, connects_termini⟩
  refine ⟨calculator, draft, _, terminiZones.zones[0], terminiZones.zones[1], hcoords, hnew,
    hturns, hdraft, hbuild, new_termini, hrun, horigin, hdestination, rfl, rfl,
    List.any_eq_true.mp hcomputed, hconnects, ?_⟩
  exact Calculator.transit_coherent hcoords hnew hturns hdraft hbuild new_termini hrun horigin
    hdestination (List.any_eq_true.mp hcomputed) hconnects

end ZoneSkims
