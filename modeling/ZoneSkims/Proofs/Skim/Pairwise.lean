import Mathlib.Data.List.ProdSigma
import ZoneSkims.Proofs.Road.LeastCost
import ZoneSkims.Proofs.Road.Pairwise
import ZoneSkims.Proofs.Skim.Road
import ZoneSkims.Proofs.Skim.Workers

/-!
# Road matrices as means over cheapest paths

A run calculates one tree for each point of origin. What it stores for a pair of zones is what
routing every point of origin to every point of destination would give: the mean over the pairs of
points with a path that is within the limit on cost.

* `RoadSearch.pairwisePaths`: one search for each pair of points.
* `connectedPairs_eq`: the pairs that trees connect.
* `Calculator.road_pairwise`: the cells of road matrices for a single departure.
-/

namespace ZoneSkims

variable {α β : Type} [Scalar α]

/-! ## Pairs of points -/

/-- The nodes of the sampling points of a zone. -/
def nodesOf (network : Network α) (zone : Zone α) : Checked (List NodeId) := do
  return (← zone.points.mapM network.nearestNode?).filterMap id

/-- The cheapest paths from sources to targets, source by source, where there are any. -/
def RoadSearch.pairwisePaths (search : RoadSearch α) (departure : α)
    (sources targets : List NodeId) : Outcome (RoadError α) (List (RoadPath α)) := do
  let paths ← (sources.product targets).mapM fun (source, target) =>
    search.cheapestPath source target departure
  return paths.filterMap id

/-- The cost is within a limit, if there is one. -/
def RoadPath.isWithin (limit : Option α) (path : RoadPath α) : Bool :=
  limit.all fun bound => decide (path.cost ≤ bound)

/-- The mean of the values of a pair of zones. Without a value the pair is out of reach, or out of
the limit when there is one. -/
def meanCell [Scalar β] [Narrowing α β] (limit : Option α) (values : List α) : Option β :=
  if values.isEmpty then
    if limit.isSome then none else some Scalar.infinity
  else some (narrow (meanOf values))

namespace RoadSearch

variable {search : RoadSearch α} {departure : α} {source node : NodeId}
  {sources targets : List NodeId} {limit : Option α} {full tree : PathTree α}

/-- The path that a search finds, if it succeeds. -/
def path? (search : RoadSearch α) (departure : α) (source target : NodeId) :
    Option (RoadPath α) :=
  match search.cheapestPath source target departure with
  | .ok path => path
  | .error _ => none

theorem pairwisePaths_eq (h : ∀ source ∈ sources, ∀ target ∈ targets, ∃ path,
      search.cheapestPath source target departure = .ok path) :
    search.pairwisePaths departure sources targets =
      .ok (sources.flatMap fun source => targets.filterMap (search.path? departure source)) := by
  have hpaths : ((sources.product targets).mapM fun (source, target) =>
      search.cheapestPath source target departure) =
        .ok ((sources.product targets).map fun (source, target) =>
          search.path? departure source target) := by
    refine mapM_eq_ok fun (source, target) hmem => ?_
    obtain ⟨hsource, htarget⟩ := List.pair_mem_product.mp hmem
    obtain ⟨path, hpath⟩ := h source hsource target htarget
    simp only [path?, hpath]
  rw [pairwisePaths, hpaths]
  refine congrArg Except.ok ?_
  simp [List.product, List.filterMap_flatMap, List.filterMap_map]

variable [LawfulScalar α] [LawfulClock α]

/-- A tree with a bound connects its source with the targets whose path is within the bound. -/
theorem connectedPair_eq (hfinite : Scalar.isFinite departure = true)
    (hlimit : ∀ bound, limit = some bound → Scalar.IsNumber bound)
    (hfull : search.treeFrom source departure Scalar.infinity = .ok full)
    (htree : search.treeFrom source departure (limit.getD Scalar.infinity) = .ok tree)
    (hnode : search.network.contains node = true) :
    (do return (← tree.travelTime? node, ← tree.distance? node) : Option (α × α)) =
      ((search.path? departure source node).filter (RoadPath.isWithin limit)).map
        fun path => (path.travelTime, path.distance) := by
  obtain ⟨links, hpath⟩ := exists_cheapestPath hfull hnode
  obtain ⟨bounded, hbounded, htime, hlabels⟩ :=
    exists_bounded_tree hfull (limit.getD Scalar.infinity)
  obtain rfl : bounded = tree := Except.ok.inj (hbounded.symm.trans htree)
  rw [path?, hpath, PathTree.travelTime?, PathTree.distance?, htime]
  cases hlabel : full.label? node with
  | none =>
    rw [hlabels, hlabel]
    rfl
  | some label =>
    obtain ⟨hcost, hafter⟩ := label_of_run hfinite hfull hlabel
    have hwithin : (¬ limit.getD Scalar.infinity < label.cost) =
        (limit.all (fun bound => decide (label.cost ≤ bound)) = true) := by
      cases limit with
      | none => exact propext (iff_of_true (Scalar.not_infinity_lt _) rfl)
      | some bound =>
        rw [Option.all_some, decide_eq_true_iff]
        exact propext ⟨Scalar.le_of_not_lt (hlimit bound rfl) hcost, Scalar.not_lt_of_le⟩
    have habs := LawfulClock.abs_sub hafter.isNumber hfinite hafter.orderedLe
    by_cases hbound : limit.all (fun bound => decide (label.cost ≤ bound)) = true
    · simp [hlabels, hlabel, Option.filter_some, hwithin, RoadPath.isWithin, hbound, habs]
    · simp [hlabels, hlabel, Option.filter_some, hwithin, RoadPath.isWithin, hbound]

/-- Trees with a bound connect the pairs of points whose path is within the bound. -/
theorem connectedPairs_eq {trees : List (PathTree α)}
    (hfinite : Scalar.isFinite departure = true)
    (hlimit : ∀ bound, limit = some bound → Scalar.IsNumber bound)
    (hfull : ∀ source ∈ sources, ∃ full,
      search.treeFrom source departure Scalar.infinity = .ok full)
    (htargets : ∀ target ∈ targets, search.network.contains target = true)
    (htrees : List.Forall₂ (fun source tree =>
      search.treeFrom source departure (limit.getD Scalar.infinity) = .ok tree) sources trees) :
    ∃ paths, search.pairwisePaths departure sources targets = .ok paths ∧
      connectedPairs trees targets = (paths.filter (RoadPath.isWithin limit)).map
        fun path => (path.travelTime, path.distance) := by
  refine ⟨_, pairwisePaths_eq fun source hsource target htarget => ?_, ?_⟩
  · obtain ⟨full, hfull⟩ := hfull source hsource
    obtain ⟨links, hpath⟩ := exists_cheapestPath hfull (htargets target htarget)
    exact ⟨_, hpath⟩
  · rw [List.filter_flatMap, List.map_flatMap, connectedPairs]
    induction htrees with
    | nil => rfl
    | @cons source tree sources trees htree _ ih =>
      obtain ⟨full, hsource⟩ := hfull source List.mem_cons_self
      rw [List.flatMap_cons, List.flatMap_cons,
        ih fun other hother => hfull other (List.mem_cons_of_mem _ hother)]
      congr 1
      rw [List.filter_filterMap, List.map_filterMap]
      exact List.filterMap_congr fun target htarget =>
        connectedPair_eq hfinite hlimit hsource htree (htargets target htarget)

end RoadSearch

/-! ## Cells -/

variable [Scalar β] [Narrowing α β]

/-- The values of a cell are the means over its pairs. -/
theorem roadCell_values (limit : Option α) (paths : List (RoadPath α)) :
    ((roadCell (β := β) limit.isSome
        (paths.map fun path => (path.travelTime, path.distance))).bind fun values => values[0]?) =
      meanCell limit (paths.map RoadPath.travelTime) ∧
    ((roadCell (β := β) limit.isSome
        (paths.map fun path => (path.travelTime, path.distance))).bind fun values => values[1]?) =
      meanCell limit (paths.map RoadPath.distance) := by
  unfold roadCell meanCell
  cases paths with
  | nil => cases limit <;> exact ⟨rfl, rfl⟩
  | cons path paths => simp [Function.comp_def]

variable {zones : Zones α} {snapped : Array (List NodeId)} {search : RoadSearch α}
  {config : Configuration α} {departure : α} {row : Nat} {cells : RowCells β}

variable (snapped search) in
theorem cells_of_single [LawfulUnit β] {col : Nat} (hr : row < zones.size) (hc : col < zones.size)
    (hdeparture : config.departures = [departure]) :
    (averagesWith zones snapped search config).travelTime.cell row col = valueAt
        (cellsOf (roadRow (β := β) zones snapped search config departure) row) 0 col ∧
      (averagesWith zones snapped search config).distance.cell row col = valueAt
        (cellsOf (roadRow (β := β) zones snapped search config departure) row) 1 col := by
  have hslices : slices search config = [departure] := by
    rw [slices, hdeparture]
    split <;> rfl
  obtain ⟨htime, hdistance⟩ := cells_sliceWith (β := β) snapped search config departure hr hc
  obtain ⟨haverage, haverage'⟩ := cells_averagesWith (β := β) snapped search hr hc
    (hdeparture ▸ List.cons_ne_nil departure [])
  rw [haverage, haverage', hslices, List.map_singleton, List.map_singleton, ← htime, ← hdistance]
  exact ⟨averageCell_singleton fun v hv => isNumber_of_valueAt (htime ▸ hv),
    averageCell_singleton fun v hv => isNumber_of_valueAt (hdistance ▸ hv)⟩

/-! ## Zones -/

omit [Scalar β] [Narrowing α β] in
theorem nodesOf_of_snapped {zone : Zone α} {network : Network α} {nodes : List NodeId}
    (hsnapped : nodesOfZones zones network = .ok snapped) (hzone : zones.zones[row]? = some zone)
    (hnodes : snapped[row]? = some nodes) : nodesOf network zone = .ok nodes :=
  eq_ok_of_mapM_array hsnapped hzone hnodes

/-! ## Rows -/

/-- The points of a zone, as nodes, and the trees from them with which its row was filled. -/
structure FilledRow (β : Type) [Scalar β] [Narrowing α β] (zones : Zones α)
    (snapped : Array (List NodeId)) (search : RoadSearch α) (config : Configuration α)
    (departure : α) (row : Nat) (zone : Zone α) (nodes : List NodeId) (trees : List (PathTree α)) :
    Prop where
  snapped_eq : snapped[row]? = some nodes
  nodes_eq : nodesOf search.network zone = .ok nodes
  searched : List.Forall₂ (fun source tree => search.treeFrom source departure
    (config.costLimit.getD Scalar.infinity) = .ok tree) nodes trees
  cells_eq : ∀ col < zones.size, ∃ near others, zones.within row col config.maxBeeline = .ok near ∧
    snapped[col]? = some others ∧
    (cellsOf (roadRow (β := β) zones snapped search config departure) row)[col]? = some
      (if near then roadCell config.costLimit.isSome (connectedPairs trees others) else none)

theorem exists_filledRow {zone : Zone α}
    (hsnapped : nodesOfZones zones search.network = .ok snapped)
    (hzone : zones.zones[row]? = some zone)
    (h : storable (roadRow zones snapped search config departure) row = .ok cells) :
    ∃ nodes trees,
      FilledRow β zones snapped search config departure row zone nodes trees := by
  obtain ⟨hrow, -⟩ := storable_eq_ok h
  obtain ⟨_, -, hrow⟩ := bind_eq_ok.mp hrow
  obtain ⟨nodes, hnodes, hrow⟩ := bind_eq_ok.mp hrow
  obtain ⟨trees, htrees, hrow⟩ := bind_eq_ok.mp hrow
  have hnodes' := fetch_eq_ok.mp (lift_eq_ok.mp hnodes)
  refine ⟨nodes, trees, hnodes', nodesOf_of_snapped hsnapped hzone hnodes',
    mapM_eq_ok_iff.mp (mapError_eq_ok_iff.mp htrees), fun col hcol => ?_⟩
  have hall := mapM_eq_ok_iff.mp hrow
  have hlength : cells.length = zones.size := by simpa using hall.length_eq.symm
  have hcell := hall.get (i := col) (by simpa using hcol) (hlength ▸ hcol)
  rw [List.get_eq_getElem, List.getElem_range] at hcell
  obtain ⟨near, hnear, hcell⟩ := bind_eq_ok.mp hcell
  obtain ⟨others, hothers, hcell⟩ := bind_eq_ok.mp hcell
  refine ⟨near, others, lift_eq_ok.mp hnear, fetch_eq_ok.mp (lift_eq_ok.mp hothers), ?_⟩
  rw [cellsOf_eq h, List.getElem?_eq_getElem (hlength ▸ hcol)]
  exact congrArg some (Except.ok.inj hcell).symm

namespace FilledRow

variable {col : Nat} {origin destination : Zone α} {sources targets : List NodeId}
  {trees others : List (PathTree α)}

theorem exists_tree (h : FilledRow β zones snapped search config departure row origin sources trees)
    {node : NodeId} (hnode : node ∈ sources) : ∃ tree, search.treeFrom node departure
      (config.costLimit.getD Scalar.infinity) = .ok tree := by
  obtain ⟨k, hk, rfl⟩ := List.getElem_of_mem hnode
  exact ⟨_, h.searched.get hk (h.searched.length_eq ▸ hk)⟩

theorem contains (h : FilledRow β zones snapped search config departure row origin sources trees)
    {node : NodeId} (hnode : node ∈ sources) : search.network.contains node = true := by
  obtain ⟨tree, htree⟩ := h.exists_tree hnode
  exact RoadSearch.contains_of_run htree

/-- The cell of two zones. -/
theorem cell_eq (h : FilledRow β zones snapped search config departure row origin sources trees)
    (h' : FilledRow β zones snapped search config departure col destination targets others)
    (horigin : zones.zones[row]? = some origin)
    (hdestination : zones.zones[col]? = some destination) :
    (cellsOf (roadRow (β := β) zones snapped search config departure) row)[col]? = some
      (if origin.isNear config.maxBeeline destination then
        roadCell config.costLimit.isSome (connectedPairs trees targets) else none) := by
  obtain ⟨near, found, hnear, hfound, hcell⟩ :=
    h.cells_eq col (Array.getElem?_eq_some_iff.mp hdestination).1
  obtain rfl : targets = found := Option.some.inj (h'.snapped_eq.symm.trans hfound)
  obtain rfl : origin.isNear config.maxBeeline destination = near :=
    Except.ok.inj ((within_eq _ horigin hdestination).symm.trans hnear)
  exact hcell

end FilledRow

/-! ## Calculators -/

namespace Calculator

variable {coords : ZoneTable (List (Coord α))} {calculator : Calculator α}
  {log log' : List (Notice α)} {turns : List Nat} {matrices : RoadMatrices ZoneId β}
  {origin destination : Zone α}

/-- What a calculator stores for two zones is the average at their positions, and every row of every
departure was filled. -/
theorem cells_of_road (hcoords : (coords.map Prod.fst).Nodup)
    (hnew : (Calculator.new config coords).result log = .ok calculator)
    (hturns : turns.Perm (List.range calculator.pool.workers))
    (hroad : ((calculator.withTurns turns).road search).result log' = .ok matrices) :
    ∃ snapped, nodesOfZones calculator.zones search.network = .ok snapped ∧
      (∀ row < calculator.zones.size, ∀ departure ∈ slices search config, ∃ cells, storable
        (roadRow (β := β) calculator.zones snapped search config departure) row = .ok cells) ∧
      ∀ row col origin destination, calculator.zones.zones[row]? = some origin →
        calculator.zones.zones[col]? = some destination →
          matrices.travelTime.get? origin.id destination.id =
            (averagesWith calculator.zones snapped search config).travelTime.cell row col ∧
          matrices.distance.get? origin.id destination.id =
            (averagesWith calculator.zones snapped search config).distance.cell row col := by
  have made := made_of_new hnew
  have hids := made.nodup_ids hcoords
  rw [road, withTurns, made.config_eq] at hroad
  obtain ⟨snapped, hsnapped, rfl, hrows⟩ := averages_of_run hids made.nonempty
    (made.complete hturns) made.valid.departures_ne_nil hroad
  exact ⟨snapped, hsnapped, hrows, fun _ _ _ _ horigin hdestination =>
    over_averagesWith.get?_eq hids horigin hdestination⟩

variable [LawfulScalar α] [LawfulClock α] [LawfulUnit β]

/-- For a single departure, the cells of a pair of zones are the means over the cheapest paths
between their points, in the order of the origins and then of the destinations. Under a limit on
cost, the trees of the origin have to succeed without it, too. -/
theorem road_pairwise (hcoords : (coords.map Prod.fst).Nodup)
    (hnew : (Calculator.new config coords).result log = .ok calculator)
    (hturns : turns.Perm (List.range calculator.pool.workers))
    (hdeparture : config.departures = [departure])
    (hroad : ((calculator.withTurns turns).road search).result log' = .ok matrices)
    (hunbounded : config.costLimit.isSome = true → ∀ nodes,
      nodesOf search.network origin = .ok nodes → ∀ node ∈ nodes, ∃ tree,
        search.treeFrom node departure Scalar.infinity = .ok tree)
    (horigin : origin ∈ calculator.zones.zones)
    (hdestination : destination ∈ calculator.zones.zones) :
    ∃ sources targets paths, nodesOf search.network origin = .ok sources ∧
      nodesOf search.network destination = .ok targets ∧
      search.pairwisePaths departure sources targets = .ok paths ∧
      matrices.travelTime.get? origin.id destination.id =
        (if origin.isNear config.maxBeeline destination then meanCell config.costLimit
          ((paths.filter (RoadPath.isWithin config.costLimit)).map RoadPath.travelTime)
        else none) ∧
      matrices.distance.get? origin.id destination.id =
        (if origin.isNear config.maxBeeline destination then meanCell config.costLimit
          ((paths.filter (RoadPath.isWithin config.costLimit)).map RoadPath.distance)
        else none) := by
  have made := made_of_new hnew
  have hfinite : Scalar.isFinite departure = true :=
    made.valid.isFinite_departure departure (hdeparture ▸ List.mem_cons_self)
  have hlimit : ∀ bound, config.costLimit = some bound → Scalar.IsNumber bound :=
    fun bound h => (made.valid.costLimit bound h).1
  have hslice : departure ∈ slices search config := by
    rw [slices, hdeparture]
    split <;> exact List.mem_cons_self
  obtain ⟨snapped, hsnapped, hrows, hget⟩ := cells_of_road hcoords hnew hturns hroad
  obtain ⟨row, horigin⟩ := Array.getElem?_of_mem horigin
  obtain ⟨col, hdestination⟩ := Array.getElem?_of_mem hdestination
  obtain ⟨hr, -⟩ := Array.getElem?_eq_some_iff.mp horigin
  obtain ⟨hc, -⟩ := Array.getElem?_eq_some_iff.mp hdestination
  obtain ⟨_, hcells⟩ := hrows row hr departure hslice
  obtain ⟨_, hcells'⟩ := hrows col hc departure hslice
  obtain ⟨sources, trees, hrow⟩ := exists_filledRow hsnapped horigin hcells
  obtain ⟨targets, others, hcol⟩ := exists_filledRow hsnapped hdestination hcells'
  have hfull : ∀ node ∈ sources, ∃ full,
      search.treeFrom node departure Scalar.infinity = .ok full := by
    intro node hnode
    cases hcost : config.costLimit with
    | none =>
      obtain ⟨tree, htree⟩ := hrow.exists_tree hnode
      rw [hcost] at htree
      exact ⟨tree, htree⟩
    | some bound =>
      exact hunbounded (by rw [hcost]; rfl) sources hrow.nodes_eq node hnode
  obtain ⟨paths, hpaths, hpairs⟩ := RoadSearch.connectedPairs_eq hfinite hlimit hfull
    (fun node hnode => hcol.contains hnode) hrow.searched
  obtain ⟨htime, hdistance⟩ := cells_of_single (β := β) snapped search hr hc hdeparture
  obtain ⟨htime', hdistance'⟩ := hget row col origin destination horigin hdestination
  have hvalues := roadCell_values (β := β) config.costLimit
    (paths.filter (RoadPath.isWithin config.costLimit))
  refine ⟨sources, targets, paths, hrow.nodes_eq, hcol.nodes_eq, hpaths, ?_, ?_⟩
  · rw [htime', htime, valueAt, hrow.cell_eq hcol horigin hdestination, hpairs]
    split
    · exact hvalues.1
    · rfl
  · rw [hdistance', hdistance, valueAt, hrow.cell_eq hcol horigin hdestination, hpairs]
    split
    · exact hvalues.2
    · rfl

end Calculator

/-! ## Two villages -/

/-- The villages are connected by roads only when the way takes no more than 150 seconds. -/
def shortTrips : Configuration Float := { Configuration.standard 1 with costLimit := some 150 }

theorem valid_shortTrips : shortTrips.Valid :=
  { valid_standard 1 (by decide) with
    costLimit := by
      rintro cost ⟨⟩
      exact ⟨rfl, by decide +kernel⟩ }

theorem exists_tree_crossings {node : NodeId}
    (hnode : crossingSearch.network.contains node = true) (departure : Float) :
    ∃ tree, crossingSearch.treeFrom node departure Scalar.infinity = .ok tree := by
  obtain ⟨-, hsound⟩ := NetworkDraft.sound_build build_crossings
  obtain ⟨state, hrun, -⟩ := RoadSearch.exists_complete
    (steady_crossingSearch.inherits .forward node) hsound (by decide) hnode
    ⟨[], [node], .root, rfl⟩ Scalar.isNumber_infinity
  exact ⟨_, hrun⟩

/-- There is a way from the western village to the eastern one, over three crossings. -/
theorem road_pairwise_villages : ∃ (calculator : Calculator Float)
    (matrices : RoadMatrices ZoneId Float32) (west east : Zone Float),
    (villages.map Prod.fst).Nodup ∧
      (Calculator.new shortTrips villages).result [] = .ok calculator ∧
      [0].Perm (List.range calculator.pool.workers) ∧ shortTrips.departures = [8.0 * 3600.0] ∧
      ((calculator.withTurns [0]).road crossingSearch).result [] = .ok matrices ∧
      (shortTrips.costLimit.isSome = true → ∀ nodes,
        nodesOf crossingSearch.network west = .ok nodes → ∀ node ∈ nodes, ∃ tree,
          crossingSearch.treeFrom node (8.0 * 3600.0) Scalar.infinity = .ok tree) ∧
      west ∈ calculator.zones.zones ∧ east ∈ calculator.zones.zones ∧
      ∃ sources targets paths, nodesOf crossingSearch.network west = .ok sources ∧
        nodesOf crossingSearch.network east = .ok targets ∧
        crossingSearch.pairwisePaths (8.0 * 3600.0) sources targets = .ok paths ∧
        matrices.travelTime.get? west.id east.id = (if west.isNear none east then
          meanCell (some 150) ((paths.filter (RoadPath.isWithin (some 150))).map
            RoadPath.travelTime) else none) ∧
        matrices.distance.get? west.id east.id = (if west.isNear none east then
          meanCell (some 150) ((paths.filter (RoadPath.isWithin (some 150))).map
            RoadPath.distance) else none) := by
  have hids := ids_villages
  have hne : Zones.ofTable villages ≠ [] := by
    intro h
    rw [h] at hids
    cases hids
  have hnodup : (villages.map Prod.fst).Nodup := by decide
  obtain ⟨calculator, hnew⟩ := Calculator.exists_of_valid valid_shortTrips hne []
  have made := Calculator.made_of_new hnew
  have hturns : [0].Perm (List.range calculator.pool.workers) := by
    rw [made.pool_eq]
    decide
  have hzone : ∀ id ∈ ["east", "west"], ∃ zone ∈ calculator.zones.zones, zone.id = id := by
    intro id hid
    obtain ⟨zone, hzone, rfl⟩ := List.mem_map.mp (hids ▸ hid)
    exact ⟨zone, made.zones_eq ▸ List.mem_toArray.mpr hzone, rfl⟩
  obtain ⟨west, hwest, -⟩ := hzone "west" (by decide)
  obtain ⟨east, heast, -⟩ := hzone "east" (by decide)
  have hunbounded : ∀ nodes, nodesOf crossingSearch.network west = .ok nodes → ∀ node ∈ nodes,
      ∃ tree, crossingSearch.treeFrom node (8.0 * 3600.0) Scalar.infinity = .ok tree := by
    have hall : ((Zones.ofTable villages).all fun zone =>
        ((nodesOf crossingSearch.network zone).toOption.getD []).all
          crossingSearch.network.contains) = true := by
      decide +kernel
    intro nodes hnodes node hnode
    rw [made.zones_eq] at hwest
    have hcontains := List.all_eq_true.mp hall west (List.mem_toArray.mp hwest)
    rw [hnodes] at hcontains
    exact exists_tree_crossings (List.all_eq_true.mp hcontains node hnode) _
  obtain ⟨matrices, hroad⟩ : ∃ matrices : RoadMatrices ZoneId Float32,
      ((calculator.withTurns [0]).road crossingSearch).result [] = .ok matrices := by
    have hsome : ((roadMatrices (β := Float32)
        { zones := (Zones.ofTable villages).toArray
          dropped := villages.length - (Zones.ofTable villages).length } crossingSearch shortTrips
          { Pool.ofSize shortTrips.workers with turns := [0] }).result []).toOption.isSome =
            true := by
      decide +kernel
    rw [Calculator.road, Calculator.withTurns, made.zones_eq, made.config_eq, made.pool_eq]
    exact exists_of_isSome hsome
  exact ⟨calculator, matrices, west, east, hnodup, hnew, hturns, rfl, hroad, fun _ => hunbounded,
    hwest, heast, Calculator.road_pairwise hnodup hnew hturns rfl hroad (fun _ => hunbounded) hwest
      heast⟩

end ZoneSkims
