import ZoneSkims.Proofs.Road.Safety
import ZoneSkims.Proofs.Skim.Pairwise
import ZoneSkims.Road.Observed

/-!
# What can break a run over the roads

A run for road matrices reads no position outside its arrays. What it stores can be undefined,
though: the values of link functions are checked, and lengths are not, so that a distance can be
undefined where a length is, or where lengths of both signs add up to opposite infinities.

* `RoadHazard`: the breaches that a network and its zones leave possible.
* `Calculator.road_unbroken`: a run has no others.
* `road_broken_gap`: an undefined length breaks a run.
-/

namespace ZoneSkims

variable {α β : Type} [Scalar α]

/-- What can break a run over a network. -/
inductive RoadHazard (network : Network α) (zones : Zones α) : Breach → Prop
  /-- A length is undefined or below 0. -/
  | length {link : Link α} : link ∈ network.links → ¬ Scalar.IsMeasure link.length →
    RoadHazard network zones .undefinedCell
  /-- Two zones have more pairs of points than can be counted in a scalar. Counted in 32 bits, pairs
  are lost long before, from `2 ^ 32` of them on. -/
  | count {origin destination : Zone α} : origin ∈ zones.zones → destination ∈ zones.zones →
    Scalar.exactLimit ≤ origin.points.length * destination.points.length →
      RoadHazard network zones .undefinedCell
  /-- The position of a node is undefined. -/
  | position {p : Coord α} : p ∈ network.nodes → p.isUndefined = true →
    RoadHazard network zones .noOrder

/-! ## Zones -/

/-- The points of a zone are finite. -/
theorem Zones.isFinite_of_mem {coords : ZoneTable (List (Coord α))} {zone : Zone α}
    (h : zone ∈ Zones.ofTable coords) : ∀ p ∈ zone.points, p.isFinite = true := by
  obtain ⟨⟨id, points⟩, -, hzone⟩ := List.mem_filterMap.mp h
  simp only [Zone.ofCoords?] at hzone
  split at hzone
  · cases hzone
  · cases hzone
    exact fun p hp => (List.mem_filter.mp hp).2

theorem Calculator.Made.isFinite_of_mem {config : Configuration α}
    {coords : ZoneTable (List (Coord α))} {calculator : Calculator α}
    (h : Made config coords calculator) {zone : Zone α} (hzone : zone ∈ calculator.zones.zones) :
    ∀ p ∈ zone.points, p.isFinite = true := by
  rw [h.zones_eq] at hzone
  exact Zones.isFinite_of_mem (List.mem_toArray.mp hzone)

theorem nodesOfZones_eq (zones : Zones α) (network : Network α) :
    nodesOfZones zones network =
      List.toArray <$> zones.zones.toList.mapM (nodesOf network) := by
  rw [← Array.mapM_eq_mapM_toList]
  rfl

theorem length_nodesOf {network : Network α} {zone : Zone α} {nodes : List NodeId}
    (h : nodesOf network zone = .ok nodes) : nodes.length ≤ zone.points.length := by
  obtain ⟨found, hfound, hnodes⟩ := bind_eq_ok.mp h
  cases hnodes
  rw [(mapM_eq_ok_iff.mp hfound).length_eq]
  exact List.length_filterMap_le ..

theorem size_of_nodesOfZones {zones : Zones α} {network : Network α}
    {snapped : Array (List NodeId)} (h : nodesOfZones zones network = .ok snapped) :
    snapped.size = zones.size := by
  rw [nodesOfZones_eq] at h
  obtain ⟨found, hfound, hsame⟩ := bind_eq_ok.mp ((map_eq_pure_bind _ _).symm.trans h)
  cases hsame
  exact (mapM_eq_ok_iff.mp hfound).length_eq.symm

/-- The nodes of zones are unknown only when the position of a node is undefined. -/
theorem nodesOfZones_error [LawfulScalar α] [LawfulSum α] [LawfulMeasure α] {zones : Zones α}
    {network : Network α} (hpoints : ∀ zone ∈ zones.zones, ∀ p ∈ zone.points, p.isFinite = true)
    {b : Breach} (h : nodesOfZones zones network = .error b) :
    b = .noOrder ∧ ∃ p ∈ network.nodes, p.isUndefined = true := by
  rw [nodesOfZones_eq, map_eq_pure_bind] at h
  obtain h | ⟨found, -, h⟩ := bind_eq_error.mp h
  · obtain ⟨zone, hzone, h⟩ := exists_of_mapM_eq_error h
    obtain h | ⟨found, -, h⟩ := bind_eq_error.mp h
    · obtain ⟨p, hp, hfails⟩ := exists_of_mapM_eq_error h
      have hfinite := hpoints zone (Array.mem_toList_iff.mp hzone) p hp
      rcases network.nearestNode?_spec hfinite with ⟨-, hok⟩ | ⟨i, hok, -⟩ | ⟨herror, hundefined⟩
      · rw [hok] at hfails
        cases hfails
      · rw [hok] at hfails
        cases hfails
      · exact ⟨Except.error.inj (hfails.symm.trans herror), hundefined⟩
    · cases h
  · cases h

/-! ## Means -/

section Means

variable [LawfulScalar α] [LawfulSum α] [LawfulMeasure α]

/-- Means of measures are numbers. -/
theorem isNumber_meanOf {xs : List α} (hne : xs ≠ []) (hlength : xs.length < Scalar.exactLimit)
    (h : ∀ x ∈ xs, Scalar.IsMeasure x) : Scalar.IsNumber (meanOf xs) := by
  have hsum := Scalar.IsMeasure.foldl_add h Scalar.isMeasure_zero
  have hcount : Scalar.isPositive (Scalar.ofNat xs.length : α) = true :=
    LawfulMeasure.isPositive_ofNat (List.length_pos_of_ne_nil hne) hlength
  obtain ⟨hfinite, hpositive⟩ := Scalar.isPositive_iff.mp hcount
  exact LawfulMeasure.isNumber_div hsum.isNumber hfinite hpositive

variable [Scalar β] [Narrowing α β] [LawfulNarrowing α β]

omit [LawfulScalar α] [LawfulSum α] [LawfulMeasure α] in
/-- The travel times and distances of a pair of points. -/
theorem connectedPairs_mem {trees : List (PathTree α)} {nodes : List NodeId} {pair : α × α}
    (h : pair ∈ connectedPairs trees nodes) : ∃ tree ∈ trees, ∃ node label,
      tree.label? node = some label ∧
        pair = (Scalar.abs (label.time - tree.rootTime), label.distance) := by
  obtain ⟨tree, htree, h⟩ := List.mem_flatMap.mp h
  obtain ⟨node, -, h⟩ := List.mem_filterMap.mp h
  rw [PathTree.travelTime?, PathTree.distance?] at h
  cases hlabel : tree.label? node with
  | none =>
    rw [hlabel] at h
    cases h
  | some label =>
    rw [hlabel] at h
    cases h
    exact ⟨tree, htree, node, label, hlabel, rfl⟩

omit [LawfulScalar α] [LawfulSum α] [LawfulMeasure α] in
theorem length_connectedPairs (trees : List (PathTree α)) (nodes : List NodeId) :
    (connectedPairs trees nodes).length ≤ trees.length * nodes.length := by
  induction trees with
  | nil => exact Nat.zero_le _
  | cons tree trees ih =>
    rw [connectedPairs, List.flatMap_cons, List.length_append, List.length_cons, Nat.succ_mul,
      Nat.add_comm]
    exact Nat.add_le_add ih (List.length_filterMap_le ..)

theorem isNumber_roadCell {limited : Bool} {pairs : List (α × α)}
    (hlength : pairs.length < Scalar.exactLimit)
    (hpairs : ∀ pair ∈ pairs, Scalar.IsMeasure pair.1 ∧ Scalar.IsMeasure pair.2)
    {values : List β} (h : roadCell limited pairs = some values) :
    ∀ value ∈ values, Scalar.IsNumber value := by
  unfold roadCell at h
  split at h
  case isTrue =>
    split at h
    · cases h
    · cases h
      simp [LawfulNarrowing.isNumber_infinity α]
  case isFalse hne =>
    have hne' : pairs ≠ [] := fun hnil => hne (List.isEmpty_iff.mpr hnil)
    have hmeans : ∀ f : α × α → α, (∀ pair ∈ pairs, Scalar.IsMeasure (f pair)) →
        Scalar.IsNumber (meanOf (pairs.map f)) := by
      intro f hf
      refine isNumber_meanOf (by simpa using hne') (by simpa using hlength) fun x hx => ?_
      obtain ⟨pair, hpair, rfl⟩ := List.mem_map.mp hx
      exact hf pair hpair
    cases h
    intro value hvalue
    rcases List.mem_pair.mp hvalue with rfl | rfl
    · exact LawfulNarrowing.isNumber_narrow (hmeans _ fun pair hpair => (hpairs pair hpair).1)
    · exact LawfulNarrowing.isNumber_narrow (hmeans _ fun pair hpair => (hpairs pair hpair).2)

end Means

/-! ## Rows -/

variable {zones : Zones α} {snapped : Array (List NodeId)} {search : RoadSearch α}
  {config : Configuration α} {departure : α} {row : Nat}

theorem roadTrees_eq_ok {zone : Zone α} {nodes : List NodeId} {maxCost : α}
    {trees : List (PathTree α)}
    (h : roadTrees search zone nodes departure maxCost = .ok trees) :
    List.Forall₂ (fun node tree => search.treeFrom node departure maxCost = .ok tree) nodes
      trees :=
  mapM_eq_ok_iff.mp (mapError_eq_ok_iff.mp h)

/-- Along links whose lengths are measures, so are travel times and distances. -/
theorem isMeasure_of_connectedPairs [LawfulScalar α] [LawfulSum α] [LawfulMeasure α]
    (hdeparture : Scalar.isFinite departure = true)
    (hlengths : ∀ link ∈ search.network.links, Scalar.IsMeasure link.length)
    {sources targets : List NodeId} {maxCost : α} {trees : List (PathTree α)}
    (htrees : List.Forall₂ (fun source tree => search.treeFrom source departure maxCost = .ok tree)
      sources trees) {pair : α × α} (hpair : pair ∈ connectedPairs trees targets) :
    Scalar.IsMeasure pair.1 ∧ Scalar.IsMeasure pair.2 := by
  obtain ⟨tree, htree, node, label, hlabel, rfl⟩ := connectedPairs_mem hpair
  obtain ⟨i, hi, rfl⟩ := List.getElem_of_mem htree
  have hrun := htrees.get (htrees.length_eq ▸ hi) hi
  have hmeasured := RoadSearch.measured_of_run hdeparture hlengths hrun hlabel
  have hroot : trees[i].rootTime = departure := RoadSearch.rootTime_of_run hrun
  rw [hroot]
  exact ⟨LawfulMeasure.isMeasure_abs (LawfulScalar.isNumber_sub hmeasured.time hdeparture),
    hmeasured.distance⟩

section Rows

variable [Scalar β] [Narrowing α β]

theorem unbroken_roadRow (htotal : search.Total) (hsound : search.network.Sound)
    (hsnapped : nodesOfZones zones search.network = .ok snapped) (hrow : row < zones.size) :
    Unbroken (roadRow (β := β) zones snapped search config departure row) := by
  have hsize := size_of_nodesOfZones hsnapped
  unfold roadRow
  refine (Breaks.lift_of_ok ⟨_, fetch_of_lt hrow⟩).bind fun zone _ => ?_
  refine (Breaks.lift_of_ok ⟨_, fetch_of_lt (hsize ▸ hrow)⟩).bind fun nodes _ => ?_
  have htrees : Unbroken (roadTrees search zone nodes departure
      (config.costLimit.getD Scalar.infinity)) :=
    (Breaks.mapM fun node _ => RoadSearch.unbroken_run htotal hsound).restate _
  refine htrees.bind fun trees _ => Breaks.mapM fun col hcol => ?_
  have hcol' : col < zones.size := List.mem_range.mp hcol
  have hnear := within_eq config.maxBeeline (Array.getElem?_eq_getElem hrow)
    (Array.getElem?_eq_getElem hcol')
  refine (Breaks.lift_of_ok ⟨_, hnear⟩).bind fun near _ => ?_
  refine (Breaks.lift_of_ok ⟨_, fetch_of_lt (hsize ▸ hcol')⟩).bind fun others _ => ?_
  exact Breaks.pure _

variable [LawfulScalar α] [LawfulSum α] [LawfulMeasure α] [LawfulNarrowing α β]

/-- What a row is filled with can be stored, when lengths are measures and pairs can be counted. -/
theorem definedCells_roadRow (hdeparture : Scalar.isFinite departure = true)
    (hlengths : ∀ link ∈ search.network.links, Scalar.IsMeasure link.length)
    (hsnapped : nodesOfZones zones search.network = .ok snapped)
    (hcounts : ∀ origin ∈ zones.zones, ∀ destination ∈ zones.zones,
      origin.points.length * destination.points.length < Scalar.exactLimit) :
    Ok (roadRow (β := β) zones snapped search config departure row) fun cells =>
      definedCells cells = true := by
  unfold roadRow
  refine Ok.bind (Ok.lift (Ok.fetch _ _)) fun zone hzone => ?_
  refine Ok.bind (Ok.lift (Ok.fetch _ _)) fun nodes hnodes => ?_
  refine Ok.bind (Ok.self _) fun trees htrees => ?_
  have hsearched := roadTrees_eq_ok htrees
  have hsources := length_nodesOf (nodesOf_of_snapped hsnapped hzone hnodes)
  refine (Ok.mapM (Q := fun cell => ∀ values, cell = some values → ∀ value ∈ values,
    Scalar.IsNumber value) fun col hcol => ?_).mono fun cells h => ?_
  · have hlt : col < zones.zones.size := List.mem_range.mp hcol
    refine Ok.bind (Ok.trivial _) fun near _ => ?_
    refine Ok.bind (Ok.lift (Ok.fetch _ _)) fun others hothers => Ok.pure ?_
    intro values hvalues
    split at hvalues
    case isFalse => cases hvalues
    have htargets := length_nodesOf (nodesOf_of_snapped hsnapped
      (Array.getElem?_eq_getElem hlt) hothers)
    refine isNumber_roadCell ?_ (fun pair hpair => ?_) hvalues
    · calc (connectedPairs trees others).length ≤ trees.length * others.length :=
            length_connectedPairs trees others
        _ ≤ zone.points.length * zones.zones[col].points.length :=
            Nat.mul_le_mul (hsearched.length_eq ▸ hsources) htargets
        _ < Scalar.exactLimit := hcounts _ (Array.mem_of_getElem? hzone) _ (Array.getElem_mem _)
    · exact isMeasure_of_connectedPairs hdeparture hlengths hsearched hpair
  · refine List.all_eq_true.mpr fun cell hcell => ?_
    cases cell with
    | none => rfl
    | some values =>
      refine List.all_eq_true.mpr fun value hvalue => ?_
      have hnumber : Scalar.isNaN value = false := h.2 _ hcell values rfl value hvalue
      rw [hnumber]
      rfl

/-- The work of a row breaks only where there is a hazard. -/
theorem breaks_roadWork (htotal : search.Total) (hsound : search.network.Sound)
    (hdepartures : ∀ time ∈ config.departures, Scalar.isFinite time = true)
    (hpoints : ∀ zone ∈ zones.zones, ∀ p ∈ zone.points, p.isFinite = true)
    (hrow : row < zones.size) :
    Breaks (RoadHazard search.network zones) (roadWork (β := β) zones search config row) := by
  unfold roadWork
  refine Breaks.bind (Breaks.lift fun b hb => ?_) fun snapped hsnapped => ?_
  · obtain ⟨rfl, p, hp, hundefined⟩ := nodesOfZones_error hpoints hb
    exact .position hp hundefined
  · rw [lift_eq_ok] at hsnapped
    refine Breaks.mapM fun departure hdeparture => ?_
    have hfinite := hdepartures _ (mem_of_mem_slices hdeparture)
    unfold storable
    refine (unbroken_roadRow htotal hsound hsnapped hrow).unbroken.bind fun cells hcells => ?_
    split
    case isTrue => exact Breaks.pure cells
    case isFalse hundefined =>
      rintro b ⟨⟩
      -- without a hazard the cells would be defined
      by_contra hnone
      refine hundefined (definedCells_roadRow hfinite (fun link hlink => ?_) hsnapped
        (fun origin horigin destination hdestination => ?_) cells hcells)
      · by_contra hlength
        exact hnone (.length hlink hlength)
      · by_contra hcount
        exact hnone (.count horigin hdestination (Nat.not_lt.mp hcount))

end Rows

/-! ## Calculators -/

/-- A run over a built network ends in matrices or in a fault, unless there is a hazard. -/
theorem Calculator.road_unbroken [Scalar β] [Narrowing α β] [LawfulScalar α] [LawfulSum α]
    [LawfulMeasure α] [LawfulNarrowing α β] {coords : ZoneTable (List (Coord α))}
    {draft : NetworkDraft α} (hvalid : config.Valid) (hcoords : (coords.map Prod.fst).Nodup)
    (husable : Zones.ofTable coords ≠ []) (hbuild : draft.build = .ok search.network)
    (htotal : search.Total) (log : List (Notice α)) :
    ∃ calculator, (Calculator.new config coords).result log = .ok calculator ∧
      ∀ turns, turns.Perm (List.range calculator.pool.workers) → ∀ log',
        (∃ matrices, ((calculator.withTurns turns).road (β := β) search).result log' =
          .ok matrices) ∨
        (∃ fault, ((calculator.withTurns turns).road (β := β) search).result log' =
          .error (.fault fault)) ∨
        ∃ breach, ((calculator.withTurns turns).road (β := β) search).result log' =
          .error (.breach breach) ∧ RoadHazard search.network calculator.zones breach := by
  obtain ⟨calculator, hnew⟩ := exists_of_valid hvalid husable log
  have made := made_of_new hnew
  obtain ⟨-, hsound⟩ := NetworkDraft.sound_build hbuild
  refine ⟨calculator, hnew, fun turns hturns log' => ?_⟩
  obtain ⟨value, hvalue⟩ := exists_roadMatrices (β := β) (made.nodup_ids hcoords) made.nonempty
    hvalid.departures_ne_nil search
  have hperforms := hvalue config.workers _ (made.complete hturns) log'
  have hrun : (calculator.withTurns turns).road (β := β) search =
      roadMatrices calculator.zones search config (calculator.withTurns turns).pool := by
    rw [road, withTurns, made.config_eq]
  rw [hrun]
  rcases hperforms.cases with ⟨-, hok⟩ | ⟨row, hrow, e, hfails, herror⟩
  · exact .inl ⟨value, hok⟩
  · cases e with
    | fault fault => exact .inr (.inl ⟨fault, herror⟩)
    | breach breach =>
      refine .inr (.inr ⟨breach, herror, ?_⟩)
      exact breaks_roadWork htotal hsound hvalid.isFinite_departure
        (fun zone hzone => made.isFinite_of_mem hzone) (List.mem_range.mp hrow) breach hfails

/-! ## Examples -/

theorem total_crossingSearch : crossingSearch.Total where
  travelTime _ hid _ := ⟨_, congrArg (Link.freeFlowTime <$> ·) (fetch_of_lt hid)⟩
  cost _ hid _ := ⟨_, congrArg (Link.freeFlowTime <$> ·) (fetch_of_lt hid)⟩

/-- Nothing of the crossings or the villages is a hazard. -/
theorem not_roadHazard_crossings {zones : Zones Float}
    (hzones : zones.zones = (Zones.ofTable villages).toArray) (breach : Breach) :
    ¬ RoadHazard crossingSearch.network zones breach := by
  have hlengths : ∀ link ∈ crossings.links.toList,
      Scalar.isNaN link.length = false ∧ ¬ link.length < 0 := by decide +kernel
  have hnodes : ∀ p ∈ crossings.nodes.toList, p.isUndefined = false := by decide +kernel
  have hpoints : ∀ zone ∈ Zones.ofTable villages, zone.points.length = 1 := by decide +kernel
  intro h
  cases h with
  | length hlink hlength =>
    obtain ⟨hnumber, hsign⟩ := hlengths _ (Array.mem_toList_iff.mpr hlink)
    exact hlength ⟨hnumber, hsign⟩
  | count horigin hdestination hcount =>
    rw [hzones, List.mem_toArray] at horigin hdestination
    rw [hpoints _ horigin, hpoints _ hdestination] at hcount
    exact absurd hcount (by decide)
  | position hp hundefined =>
    rw [hnodes _ (Array.mem_toList_iff.mpr hp)] at hundefined
    cases hundefined

/-- Between the villages, the run ends in matrices or a fault. -/
theorem road_unbroken_villages : (Configuration.standard 2 : Configuration Float).Valid ∧
    (villages.map Prod.fst).Nodup ∧ Zones.ofTable villages ≠ [] ∧
      crossings.build = .ok crossingSearch.network ∧ crossingSearch.Total ∧
      ∃ calculator : Calculator Float,
        (Calculator.new (Configuration.standard 2) villages).result [] = .ok calculator ∧
        ∀ turns, turns.Perm (List.range calculator.pool.workers) → ∀ log,
          (∃ matrices, ((calculator.withTurns turns).road (β := Float32) crossingSearch).result
            log = .ok matrices) ∨
          ∃ fault, ((calculator.withTurns turns).road (β := Float32) crossingSearch).result log =
            .error (.fault fault) := by
  have hvalid := valid_standard 2 (by decide)
  have husable := Zones.ne_nil_of_ids ids_villages
  obtain ⟨calculator, hnew, hends⟩ := Calculator.road_unbroken (β := Float32) hvalid
    (by decide : (villages.map Prod.fst).Nodup) husable build_crossings total_crossingSearch []
  refine ⟨hvalid, by decide, husable, build_crossings, total_crossingSearch, calculator, hnew,
    fun turns hturns log => ?_⟩
  rcases hends turns hturns log with hok | hfault | ⟨breach, -, hhazard⟩
  · exact .inl hok
  · exact .inr hfault
  · have hzones := congrArg Zones.zones (Calculator.made_of_new hnew).zones_eq
    exact absurd hhazard (not_roadHazard_crossings hzones breach)

/-- A link of undefined length between two nodes. -/
def gap : NetworkDraft Float where
  nodes := #[⟨0, 0⟩, ⟨100, 0⟩]
  links := #[{ LinkTraits.car (0 / 0) 10 with source := ⟨0⟩, target := ⟨1⟩ }]

/-- One traversal of the gap was observed, of ten seconds. -/
def gapTimes : ObservedTimes Float where
  binSize := 86400
  binCount := 1
  bins := #[⟨10, 1⟩]

/-- The observed times over the gap, with the time as cost. -/
def gapSearch : RoadSearch Float where
  network := gap.layOut
  travelTime := gapTimes.travelTime gap.layOut
  cost := .timeCost (gapTimes.travelTime gap.layOut)

/-- A village at each end of the gap. -/
def gapEnds : ZoneTable (List (Coord Float)) :=
  [("a", [⟨0, 0⟩]), ("b", [⟨100, 0⟩])]

theorem total_gapSearch : gapSearch.Total := by
  have hvalue : ∀ id : LinkId, id.index < 1 → ∀ time,
      ∃ value, (gapTimes.travelTime gap.layOut).value id time = .ok value := by
    intro id hid time
    obtain rfl : id = ⟨0⟩ := Id.index_injective (Nat.lt_one_iff.mp hid)
    have hslot : gapTimes.slot ⟨0⟩ time = 0 := by
      have hbin : gapTimes.bin time = 0 := Nat.min_zero _
      rw [ObservedTimes.slot, hbin]
      rfl
    have hat : gapTimes.at? ⟨0⟩ time = .ok ⟨10, 1⟩ := by
      rw [ObservedTimes.at?, hslot]
      rfl
    refine ⟨ObservedTimes.average (Link.freeFlowTime gap.links[0]) ⟨10, 1⟩, ?_⟩
    simp only [ObservedTimes.travelTime, hat]
    rfl
  exact ⟨hvalue, hvalue⟩

/-- The times over the gap are finite, and so nothing is wrong with its length until the distance
is stored. -/
theorem road_broken_gap : (Configuration.standard 1 : Configuration Float).Valid ∧
    (gapEnds.map Prod.fst).Nodup ∧ Zones.ofTable gapEnds ≠ [] ∧
      gap.build = .ok gapSearch.network ∧ gapSearch.Total ∧
      ∃ calculator : Calculator Float,
        (Calculator.new (Configuration.standard 1) gapEnds).result [] = .ok calculator ∧
        (calculator.road (β := Float32) gapSearch).result [] =
          .error (.breach .undefinedCell) := by
  have hvalid := valid_standard 1 (by decide)
  have hids : (Zones.ofTable gapEnds).map Zone.id = ["a", "b"] := by decide +kernel
  have husable := Zones.ne_nil_of_ids hids
  have hbuild : gap.build = .ok gap.layOut :=
    NetworkDraft.build_eq_ok.mpr ⟨by decide +kernel, rfl, rfl⟩
  obtain ⟨calculator, hnew⟩ := Calculator.exists_of_valid hvalid husable []
  have made := Calculator.made_of_new hnew
  refine ⟨hvalid, by decide, husable, hbuild, total_gapSearch, calculator, hnew, ?_⟩
  have hbreach : breach? ((roadMatrices (β := Float32)
      { zones := (Zones.ofTable gapEnds).toArray
        dropped := gapEnds.length - (Zones.ofTable gapEnds).length } gapSearch
        (Configuration.standard 1) (Pool.ofSize 1)).result []) = some .undefinedCell := by
    decide +kernel
  rw [Calculator.road, made.zones_eq, made.config_eq, made.pool_eq]
  exact eq_error_of_breach? hbreach

end ZoneSkims
