import Mathlib.Algebra.Order.BigOperators.Group.List
import Mathlib.Data.List.ReduceOption
import ZoneSkims.Proofs.Scalar.Exact
import ZoneSkims.Proofs.Skim.Pairwise

/-!
# Averages over departures

In exact arithmetic, a cell of averaged road matrices is the sum of what the departures have
computed for it, divided by the number of all departures. That is their mean when every departure
has computed the cell. Under a limit on cost, some departures may not have computed it, and then
the sum is divided by too large a number.

* `Totals`: sums of cells.
* `Averaged`: what a cell of averages is.
* `Calculator.road_averaged`: the cells of averaged road matrices.
* `road_average_not_between`: an average that is not between what was computed.
-/

namespace ZoneSkims

open Exact

variable {K : Type} [Field K] [LinearOrder K]

/-! ## Sums of cells -/

/-- The sum of cells that are not infinite below zero. -/
inductive Totals : List (Option (Exact K)) → Option (Exact K) → Prop
  | nothing {cells : List (Option (Exact K))} : (∀ cell ∈ cells, cell = none) → Totals cells none
  | number {cells : List (Option (Exact K))} {values : List K} :
    cells.reduceOption = values.map finite → values ≠ [] →
      Totals cells (some (finite values.sum))
  | infinity {cells : List (Option (Exact K))} : some above ∈ cells → Totals cells (some above)

theorem Totals.concat {cells : List (Option (Exact K))} {total cell : Option (Exact K)}
    (h : Totals cells total) (hcell : ∀ v, cell = some v → v = above ∨ ∃ x, v = finite x) :
    Totals (cells ++ [cell]) (increasedBy total cell) := by
  cases cell with
  | none =>
    cases h with
    | nothing hnone =>
      refine .nothing fun cell hmem => ?_
      exact (List.mem_append.mp hmem).elim (hnone cell) List.mem_singleton.mp
    | number hvalues hne => exact .number (by simpa [List.reduceOption_append]) hne
    | infinity hmem => exact .infinity (List.mem_append_left _ hmem)
  | some v =>
    obtain rfl | ⟨x, rfl⟩ := hcell v rfl
    · have hmem : some above ∈ cells ++ [some (above : Exact K)] := by simp
      cases h <;> exact .infinity hmem
    · cases h with
      | nothing hnone =>
        have hempty : cells.reduceOption = [] := by
          rw [List.eq_nil_iff_forall_not_mem]
          intro v hv
          cases hnone _ (List.reduceOption_mem_iff.mp hv)
        have hvalues : (cells ++ [some (finite x)]).reduceOption = [x].map finite := by
          simp [List.reduceOption_append, hempty]
        have htotal := Totals.number hvalues (List.cons_ne_nil x [])
        rwa [List.sum_singleton] at htotal
      | @number values hvalues hne =>
        have hvalues' : (cells ++ [some (finite x)]).reduceOption = (values ++ [x]).map finite := by
          simp [List.reduceOption_append, hvalues]
        have htotal := Totals.number hvalues' (List.append_ne_nil_of_left_ne_nil hne [x])
        rwa [List.sum_append, List.sum_singleton] at htotal
      | infinity hmem => exact .infinity (List.mem_append_left _ hmem)

theorem totals_foldl {cells : List (Option (Exact K))}
    (h : ∀ v, some v ∈ cells → v = above ∨ ∃ x, v = finite x) :
    Totals cells (cells.foldl increasedBy none) := by
  induction cells using List.reverseRecOn with
  | nil => exact .nothing nofun
  | append_singleton cells cell ih =>
    rw [List.foldl_append]
    exact (ih fun v hv => h v (List.mem_append_left _ hv)).concat fun v hv => h v (by simp [hv])

/-! ## Averages of cells -/

/-- The average of a cell over departures that have given it these cells. It is computed when one
of them is. It is their mean when all of them are, and otherwise, by the last law, too small. -/
structure Averaged (cells : List (Option (Exact K))) (average : Option (Exact K)) : Prop where
  isSome_iff : average.isSome = true ↔ ∃ value, some value ∈ cells
  between : (∀ cell ∈ cells, cell.isSome = true) → ∀ value, average = some value →
    ∃ low high, some low ∈ cells ∧ some high ∈ cells ∧ low ≤ value ∧ value ≤ high
  eq_infinity : some above ∈ cells → average = some above
  eq_quotient : ∀ values, cells.reduceOption = values.map finite → values ≠ [] →
    average = some (finite (values.sum / (cells.length : K)))

variable [IsStrictOrderedRing K]

theorem scaled_finite (x : K) {n : Nat} (hn : n ≠ 0) :
    scaled (Scalar.ofNat 1 / Scalar.ofNat n) (finite x) = finite (x / n) := by
  have hn' : (n : K) ≠ 0 := Nat.cast_ne_zero.mpr hn
  have hfactor : finite x * (Scalar.ofNat 1 / Scalar.ofNat n) = finite (x / n) := by
    rw [finite_ofNat, finite_ofNat, finite_div _ hn', finite_mul, Nat.cast_one, mul_one_div]
  rw [scaled, hfactor]
  rfl

theorem scaled_above {n : Nat} (hn : n ≠ 0) :
    scaled (Scalar.ofNat 1 / Scalar.ofNat n) (above : Exact K) = above := by
  have hn' : 0 < (n : K) := Nat.cast_pos.mpr (Nat.pos_of_ne_zero hn)
  have hfactor : (above * (Scalar.ofNat 1 / Scalar.ofNat n) : Exact K) = above := by
    rw [finite_ofNat, finite_ofNat, finite_div _ hn'.ne', Nat.cast_one,
      above_mul (one_div_pos.mpr hn')]
  rw [scaled, hfactor]
  rfl

/-- A quotient of a sum by the number of its terms lies between two of them. -/
theorem exists_le_mean {values : List K} (h : values ≠ []) :
    ∃ low ∈ values, ∃ high ∈ values,
      low ≤ values.sum / values.length ∧ values.sum / values.length ≤ high := by
  have hlength : (values.length : K) ≠ 0 := Nat.cast_ne_zero.mpr (by simpa using h)
  have hmean : (values.map fun _ => values.sum / values.length).sum = (values.map id).sum := by
    rw [List.map_const', List.sum_replicate, nsmul_eq_mul, mul_div_cancel₀ _ hlength, List.map_id]
  obtain ⟨low, hlow, hle⟩ := List.exists_le_of_sum_le h _ _ hmean.ge
  obtain ⟨high, hhigh, hge⟩ := List.exists_le_of_sum_le h _ _ hmean.le
  exact ⟨low, hlow, high, hhigh, hle, hge⟩

theorem averaged_averageCell {cells : List (Option (Exact K))} (hcells : cells ≠ [])
    (hvalue : ∀ v, some v ∈ cells → v = above ∨ ∃ x, v = finite x) :
    Averaged cells (averageCell cells) := by
  have hn : cells.length ≠ 0 := by simpa using hcells
  have hmem : ∀ {values : List K}, cells.reduceOption = values.map finite →
      ∀ v, some v ∈ cells ↔ ∃ x ∈ values, finite x = v := by
    intro values hvalues v
    rw [← List.reduceOption_mem_iff, hvalues, List.mem_map]
  have htotal := totals_foldl hvalue
  rw [averageCell]
  generalize cells.foldl increasedBy none = total at htotal ⊢
  cases htotal with
  | nothing hnone =>
    have hcell : ∀ v, some v ∉ cells := fun v hv => Option.some_ne_none v (hnone _ hv)
    refine ⟨iff_of_false Bool.false_ne_true (not_exists.mpr hcell), fun _ _ hv => ?_,
      fun hv => absurd hv (hcell _), fun values hvalues hne => ?_⟩
    · cases hv
    · obtain ⟨x, hx⟩ := List.exists_mem_of_ne_nil values hne
      exact absurd ((hmem hvalues _).mpr ⟨x, hx, rfl⟩) (hcell _)
  | @number values hvalues hne =>
    obtain ⟨x, hx⟩ := List.exists_mem_of_ne_nil values hne
    rw [Option.map_some, scaled_finite _ hn]
    refine ⟨iff_of_true rfl ⟨_, (hmem hvalues _).mpr ⟨x, hx, rfl⟩⟩, fun hall v hv => ?_,
      fun hv => ?_, fun others hothers _ => ?_⟩
    · have hlength : values.length = cells.length := by
        rw [← List.reduceOption_length_eq_iff.mpr hall, hvalues, List.length_map]
      obtain ⟨low, hlow, high, hhigh, hle, hge⟩ := exists_le_mean hne
      cases hv
      rw [← hlength]
      exact ⟨_, _, (hmem hvalues _).mpr ⟨low, hlow, rfl⟩, (hmem hvalues _).mpr ⟨high, hhigh, rfl⟩,
        finite_le.mpr hle, finite_le.mpr hge⟩
    · obtain ⟨y, -, hy⟩ := (hmem hvalues _).mp hv
      cases hy
    · obtain rfl : values = others :=
        List.map_injective_iff.mpr (fun _ _ h => Exact.finite.inj h) (hvalues.symm.trans hothers)
      rfl
  | infinity hv =>
    rw [Option.map_some, scaled_above hn]
    refine ⟨iff_of_true rfl ⟨_, hv⟩, fun _ v h => ?_, fun _ => rfl, fun values hvalues _ => ?_⟩
    · cases h
      exact ⟨_, _, hv, hv, le_above rfl, le_above rfl⟩
    · obtain ⟨y, -, hy⟩ := (hmem hvalues _).mp hv
      cases hy

/-! ## The cells of a departure -/

section Slices

variable {zones : Zones (Exact K)} {snapped : Array (List NodeId)} {search : RoadSearch (Exact K)}
  {config : Configuration (Exact K)} {departure : Exact K} {row col : Nat}

omit [IsStrictOrderedRing K] in
/-- Distances are sums of lengths. -/
theorem distance_ne_below (hlengths : ∀ link ∈ search.network.links, link.length ≠ below)
    {source node : NodeId} {maxCost : Exact K} {tree : PathTree (Exact K)}
    (htree : search.treeFrom source departure maxCost = .ok tree) {label : Label (Exact K)}
    (hlabel : tree.label? node = some label) : label.distance ≠ below := by
  have hroot : (RoadSearch.rootLabel departure).distance = finite 0 := rfl
  refine RoadSearch.run_labels (Q := fun label => label.distance ≠ below) (hroot ▸ nofun)
    (fun _ h => h) (fun near id link label h hoffer => ?_) htree hlabel
  obtain ⟨hlink, _, _, -, rfl⟩ := hoffer
  exact add_ne_below h (hlengths link (Array.mem_of_getElem? hlink))

omit [IsStrictOrderedRing K] in
theorem connectedPairs_ne_below
    (hlengths : ∀ link ∈ search.network.links, link.length ≠ below) {sources targets : List NodeId}
    {maxCost : Exact K} {trees : List (PathTree (Exact K))}
    (htrees : List.Forall₂ (fun source tree => search.treeFrom source departure maxCost = .ok tree)
      sources trees) {pair : Exact K × Exact K} (hpair : pair ∈ connectedPairs trees targets) :
    pair.1 ≠ below ∧ pair.2 ≠ below := by
  obtain ⟨tree, htree, hpair⟩ := List.mem_flatMap.mp hpair
  obtain ⟨node, -, hpair⟩ := List.mem_filterMap.mp hpair
  obtain ⟨i, hi, rfl⟩ := List.getElem_of_mem htree
  have hrun := htrees.get (htrees.length_eq ▸ hi) hi
  rw [PathTree.travelTime?, PathTree.distance?] at hpair
  cases hlabel : trees[i].label? node with
  | none =>
    rw [hlabel] at hpair
    cases hpair
  | some label =>
    rw [hlabel] at hpair
    cases hpair
    exact ⟨abs_ne_below _, distance_ne_below hlengths hrun hlabel⟩

theorem meanOf_ne_below {xs : List (Exact K)} (hne : xs ≠ []) (h : ∀ x ∈ xs, x ≠ below) :
    meanOf xs ≠ below := by
  have hsum : ∀ total : Exact K, total ≠ below → xs.foldl (· + ·) total ≠ below := by
    clear hne
    induction xs with
    | nil => exact fun total htotal => htotal
    | cons x xs ih =>
      intro total htotal
      exact ih (fun y hy => h y (List.mem_cons_of_mem x hy)) _
        (add_ne_below htotal (h x List.mem_cons_self))
  exact div_ne_below (hsum 0 nofun) (Nat.cast_pos.mpr (List.length_pos_of_ne_nil hne))

theorem roadCell_ne_below {limited : Bool} {pairs : List (Exact K × Exact K)}
    (hpairs : ∀ pair ∈ pairs, pair.1 ≠ below ∧ pair.2 ≠ below) {values : List (Exact K)}
    (h : roadCell limited pairs = some values) {v : Exact K} (hv : v ∈ values) : v ≠ below := by
  unfold roadCell at h
  split at h
  case isTrue =>
    split at h
    · cases h
    · cases h
      rcases List.mem_pair.mp hv with rfl | rfl <;> exact nofun
  case isFalse hne =>
    have hne' : pairs ≠ [] := fun hnil => hne (List.isEmpty_iff.mpr hnil)
    have hmeans : ∀ f : Exact K × Exact K → Exact K, (∀ pair ∈ pairs, f pair ≠ below) →
        meanOf (pairs.map f) ≠ below := by
      intro f hf
      refine meanOf_ne_below (by simpa using hne') fun x hx => ?_
      obtain ⟨pair, hpair, rfl⟩ := List.mem_map.mp hx
      exact hf pair hpair
    cases h
    rcases List.mem_pair.mp hv with rfl | rfl
    · exact hmeans _ fun pair hpair => (hpairs pair hpair).1
    · exact hmeans _ fun pair hpair => (hpairs pair hpair).2

/-- What a departure computes for a cell is a number, or infinite when there is no way. -/
theorem valueAt_roadRow (hlengths : ∀ link ∈ search.network.links, link.length ≠ below)
    (hsnapped : nodesOfZones zones search.network = .ok snapped) (hrow : row < zones.size)
    (hcol : col < zones.size) {cells : RowCells (Exact K)}
    (hcells : storable (roadRow zones snapped search config departure) row = .ok cells)
    {k : Nat} {v : Exact K}
    (hv : valueAt (cellsOf (roadRow zones snapped search config departure) row) k col = some v) :
    v = above ∨ ∃ x, v = finite x := by
  refine eq_above_or_finite (isNumber_of_valueAt hv) ?_
  obtain ⟨nodes, trees, hfilled⟩ :=
    exists_filledRow hsnapped (Array.getElem?_eq_getElem hrow) hcells
  obtain ⟨near, others, -, -, hcell⟩ := hfilled.cells_eq col hcol
  rw [valueAt, hcell] at hv
  obtain ⟨values, hvalues, hvalue⟩ := Option.bind_eq_some_iff.mp hv
  cases near with
  | false => cases hvalues
  | true =>
    exact roadCell_ne_below (fun _ hpair => connectedPairs_ne_below hlengths hfilled.searched hpair)
      hvalues (List.mem_of_getElem? hvalue)

theorem averaged_cells (hlengths : ∀ link ∈ search.network.links, link.length ≠ below)
    (hsnapped : nodesOfZones zones search.network = .ok snapped) (hrow : row < zones.size)
    (hcol : col < zones.size) (hdepartures : config.departures ≠ [])
    (hrows : ∀ departure ∈ slices search config, ∃ cells,
      storable (roadRow (β := Exact K) zones snapped search config departure) row = .ok cells) :
    Averaged ((slices search config).map fun departure =>
        (sliceWith (β := Exact K) zones snapped search config departure).travelTime.cell row col)
      ((averagesWith (β := Exact K) zones snapped search config).travelTime.cell row col) ∧
    Averaged ((slices search config).map fun departure =>
        (sliceWith (β := Exact K) zones snapped search config departure).distance.cell row col)
      ((averagesWith (β := Exact K) zones snapped search config).distance.cell row col) := by
  obtain ⟨htime, hdistance⟩ := cells_averagesWith (β := Exact K) snapped search hrow hcol
    hdepartures
  have hne := slices_ne_nil search hdepartures
  rw [htime, hdistance]
  constructor
  all_goals
    refine averaged_averageCell (by simpa using hne) fun v hv => ?_
    obtain ⟨departure, hmem, hv⟩ := List.mem_map.mp hv
    obtain ⟨cells, hcells⟩ := hrows departure hmem
    obtain ⟨hcell, hcell'⟩ := cells_sliceWith (β := Exact K) snapped search config departure hrow
      hcol
  · exact valueAt_roadRow hlengths hsnapped hrow hcol hcells (hcell.symm.trans hv)
  · exact valueAt_roadRow hlengths hsnapped hrow hcol hcells (hcell'.symm.trans hv)

end Slices

/-! ## Calculators -/

/-- In exact arithmetic, what a calculator stores for two zones are averages over the departures it
has searched for. -/
theorem Calculator.road_averaged {config : Configuration (Exact K)}
    {coords : ZoneTable (List (Coord (Exact K)))} {calculator : Calculator (Exact K)}
    {log log' : List (Notice (Exact K))} {turns : List Nat} {search : RoadSearch (Exact K)}
    {matrices : RoadMatrices ZoneId (Exact K)} (hcoords : (coords.map Prod.fst).Nodup)
    (hnew : (Calculator.new config coords).result log = .ok calculator)
    (hturns : turns.Perm (List.range calculator.pool.workers))
    (hlengths : ∀ link ∈ search.network.links, link.length ≠ below)
    (hroad : ((calculator.withTurns turns).road search).result log' = .ok matrices) :
    ∃ (snapped : Array (List NodeId)) (parts : List (RoadMatrices ZoneId (Exact K))),
      nodesOfZones calculator.zones search.network = .ok snapped ∧
      List.Forall₂ (fun departure part => ∀ log, (roadSlice calculator.zones snapped search config
        (calculator.withTurns turns).pool departure).result log = .ok part)
        (slices search config) parts ∧
      ∀ origin ∈ calculator.zones.zones, ∀ destination ∈ calculator.zones.zones,
        Averaged (parts.map fun part => part.travelTime.get? origin.id destination.id)
          (matrices.travelTime.get? origin.id destination.id) ∧
        Averaged (parts.map fun part => part.distance.get? origin.id destination.id)
          (matrices.distance.get? origin.id destination.id) := by
  have made := made_of_new hnew
  have hids := made.nodup_ids hcoords
  obtain ⟨snapped, hsnapped, hrows, hget⟩ := cells_of_road hcoords hnew hturns hroad
  refine ⟨snapped, (slices search config).map (sliceWith calculator.zones snapped search config),
    hsnapped, ?_, fun origin horigin destination hdestination => ?_⟩
  · refine List.forall₂_map_right_iff.mpr (List.forall₂_same.mpr fun departure hmem log => ?_)
    have hslice := roadSlice_performs (β := Exact K) snapped search config hids
      (made.complete hturns) departure
    refine (hslice log).succeeds fun row hrow => ?_
    exact hrows row (List.mem_range.mp hrow) departure hmem
  · obtain ⟨row, horigin⟩ := Array.getElem?_of_mem horigin
    obtain ⟨col, hdestination⟩ := Array.getElem?_of_mem hdestination
    obtain ⟨hr, -⟩ := Array.getElem?_eq_some_iff.mp horigin
    obtain ⟨hc, -⟩ := Array.getElem?_eq_some_iff.mp hdestination
    have haveraged := averaged_cells hlengths hsnapped hr hc made.valid.departures_ne_nil
      (hrows row hr)
    obtain ⟨htime, hdistance⟩ := hget row col origin destination horigin hdestination
    have hpart : ∀ departure, _ := fun departure => RoadMatrices.Over.get?_eq
      (m := sliceWith (β := Exact K) calculator.zones snapped search config departure)
      (over_sliceWith departure) hids horigin hdestination
    rw [htime, hdistance, List.map_map, List.map_map]
    simpa only [Function.comp_def, hpart] using haveraged

/-! ## A lane that is closed later -/

/-- A lane of 100 metres between two nodes. -/
def lane : NetworkDraft (Exact ℚ) where
  nodes := #[⟨finite 0, finite 0⟩, ⟨finite 100, finite 0⟩]
  links := #[{ length := finite 100, freeSpeed := finite 10, capacity := finite 1800
               modes := ModeSet.single .car, source := ⟨0⟩, target := ⟨1⟩ }]

/-- From the time 1000 on, the lane costs a hundred times as much. -/
noncomputable def laneSearch : RoadSearch (Exact ℚ) where
  network := lane.layOut
  travelTime := LinkFunction.freeFlow lane.layOut
  cost :=
    { value link time := do
        let seconds ← lane.layOut.freeFlowTime link
        return if time < finite 1000 then seconds else finite 100 * seconds
      timeInvariant := false }

/-- A hamlet at each end of the lane. -/
def hamlets : ZoneTable (List (Coord (Exact ℚ))) :=
  [("a", [⟨finite 0, finite 0⟩]), ("b", [⟨finite 100, finite 0⟩])]

/-- A departure before the lane is closed and one after that, and a limit on cost between its
costs. -/
noncomputable def beforeAndAfter : Configuration (Exact ℚ) :=
  { Configuration.standard 1 with
    departures := [finite 0, finite 2000], costLimit := some (finite 50) }

noncomputable def hamletZones : Zones (Exact ℚ) :=
  { zones := (Zones.ofTable hamlets).toArray
    dropped := hamlets.length - (Zones.ofTable hamlets).length }

/-- A single worker. -/
def lonePool : Pool := { Pool.ofSize 1 with turns := [0] }

theorem exists_hamlets : ∃ (calculator : Calculator (Exact ℚ))
    (averages : RoadMatrices ZoneId (Exact ℚ)),
    (Calculator.new beforeAndAfter hamlets).result [] = .ok calculator ∧
      [0].Perm (List.range calculator.pool.workers) ∧ calculator.zones = hamletZones ∧
      (calculator.withTurns [0]).pool = lonePool ∧
      ((calculator.withTurns [0]).road laneSearch).result [] = .ok averages ∧
      averages.travelTime.get? "a" "b" = some (finite 5) := by
  have hvalid : beforeAndAfter.Valid := by
    have hsome : beforeAndAfter.validate.toOption.isSome = true := by decide +kernel
    obtain ⟨_, hok⟩ := exists_of_isSome hsome
    exact Configuration.validate_eq_ok_iff.mp hok
  have hids : (Zones.ofTable hamlets).map Zone.id = ["a", "b"] := by decide +kernel
  obtain ⟨calculator, hnew⟩ :=
    Calculator.exists_of_valid hvalid (Zones.ne_nil_of_ids hids) []
  have made := Calculator.made_of_new hnew
  have hpool : (calculator.withTurns [0]).pool = lonePool := by
    rw [Calculator.withTurns, made.pool_eq]
    rfl
  have haverages : (((roadMatrices hamletZones laneSearch beforeAndAfter lonePool).result
      []).toOption.any fun (m : RoadMatrices ZoneId (Exact ℚ)) =>
        decide (m.travelTime.get? "a" "b" = some (finite 5))) = true := by
    decide +kernel
  obtain ⟨averages, haverages, hcell⟩ := exists_of_any haverages
  refine ⟨calculator, averages, hnew, ?_, made.zones_eq, hpool, ?_, hcell⟩
  · rw [made.pool_eq]
    decide
  · change (roadMatrices calculator.zones laneSearch calculator.config
      (calculator.withTurns [0]).pool).result [] = _
    rw [made.zones_eq, made.config_eq, hpool]
    exact haverages

theorem length_ne_below_lane : ∀ link ∈ laneSearch.network.links, link.length ≠ below := by
  intro link hlink
  obtain rfl : link = _ := List.mem_singleton.mp hlink.val
  exact nofun

theorem road_averaged_hamlets : ∃ (calculator : Calculator (Exact ℚ))
    (averages : RoadMatrices ZoneId (Exact ℚ)) (snapped : Array (List NodeId))
    (parts : List (RoadMatrices ZoneId (Exact ℚ))), (hamlets.map Prod.fst).Nodup ∧
      (Calculator.new beforeAndAfter hamlets).result [] = .ok calculator ∧
      [0].Perm (List.range calculator.pool.workers) ∧
      (∀ link ∈ laneSearch.network.links, link.length ≠ below) ∧
      ((calculator.withTurns [0]).road laneSearch).result [] = .ok averages ∧
      nodesOfZones calculator.zones laneSearch.network = .ok snapped ∧
      List.Forall₂ (fun departure part => ∀ log, (roadSlice calculator.zones snapped laneSearch
        beforeAndAfter (calculator.withTurns [0]).pool departure).result log = .ok part)
        (slices laneSearch beforeAndAfter) parts ∧
      ∀ origin ∈ calculator.zones.zones, ∀ destination ∈ calculator.zones.zones,
        Averaged (parts.map fun part => part.travelTime.get? origin.id destination.id)
          (averages.travelTime.get? origin.id destination.id) ∧
        Averaged (parts.map fun part => part.distance.get? origin.id destination.id)
          (averages.distance.get? origin.id destination.id) := by
  obtain ⟨calculator, averages, hnew, hturns, -, -, hroad, -⟩ := exists_hamlets
  obtain ⟨snapped, parts, hsnapped, hparts, haveraged⟩ := Calculator.road_averaged
    (by decide) hnew hturns length_ne_below_lane hroad
  exact ⟨calculator, averages, snapped, parts, by decide, hnew, hturns, length_ne_below_lane, hroad,
    hsnapped, hparts, haveraged⟩

/-- Nothing is computed after the lane was closed, and so half of what was computed before that is
stored. -/
theorem road_average_not_between : ∃ (calculator : Calculator (Exact ℚ))
    (before after averages : RoadMatrices ZoneId (Exact ℚ)), (hamlets.map Prod.fst).Nodup ∧
      (Calculator.new beforeAndAfter hamlets).result [] = .ok calculator ∧
      [0].Perm (List.range calculator.pool.workers) ∧
      nodesOfZones calculator.zones laneSearch.network = .ok #[[⟨0⟩], [⟨1⟩]] ∧
      beforeAndAfter.departures = [finite 0, finite 2000] ∧
      (roadSlice calculator.zones #[[⟨0⟩], [⟨1⟩]] laneSearch beforeAndAfter
        (calculator.withTurns [0]).pool (finite 0)).result [] = .ok before ∧
      (roadSlice calculator.zones #[[⟨0⟩], [⟨1⟩]] laneSearch beforeAndAfter
        (calculator.withTurns [0]).pool (finite 2000)).result [] = .ok after ∧
      ((calculator.withTurns [0]).road laneSearch).result [] = .ok averages ∧
      before.travelTime.get? "a" "b" = some (finite 10) ∧
      after.travelTime.get? "a" "b" = none ∧
      averages.travelTime.get? "a" "b" = some (finite 5) ∧
      ¬ (finite 10 : Exact ℚ) ≤ finite 5 := by
  obtain ⟨calculator, averages, hnew, hturns, hzones, hpool, hroad, hcell⟩ := exists_hamlets
  have hnodes : ((nodesOfZones hamletZones laneSearch.network).toOption.any fun nodes =>
      decide (nodes = #[[⟨0⟩], [⟨1⟩]])) = true := by
    decide +kernel
  have hbefore : (((roadSlice hamletZones #[[⟨0⟩], [⟨1⟩]] laneSearch beforeAndAfter lonePool
      (finite 0)).result []).toOption.any fun (m : RoadMatrices ZoneId (Exact ℚ)) =>
        decide (m.travelTime.get? "a" "b" = some (finite 10))) = true := by
    decide +kernel
  have hafter : (((roadSlice hamletZones #[[⟨0⟩], [⟨1⟩]] laneSearch beforeAndAfter lonePool
      (finite 2000)).result []).toOption.any fun (m : RoadMatrices ZoneId (Exact ℚ)) =>
        decide (m.travelTime.get? "a" "b" = none)) = true := by
    decide +kernel
  obtain ⟨nodes, hnodes, rfl⟩ := exists_of_any hnodes
  obtain ⟨before, hbefore, hbefore'⟩ := exists_of_any hbefore
  obtain ⟨after, hafter, hafter'⟩ := exists_of_any hafter
  refine ⟨calculator, before, after, averages, by decide, hnew, hturns, hzones ▸ hnodes, rfl, ?_,
    ?_, hroad, hbefore', hafter', hcell, ?_⟩
  · rw [hzones, hpool, hbefore]
  · rw [hzones, hpool, hafter]
  · rw [finite_le]
    decide

end ZoneSkims
