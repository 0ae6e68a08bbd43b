import ZoneSkims.Proofs.Distance
import ZoneSkims.Proofs.Matrix.PartialMap
import ZoneSkims.Proofs.Skim.Safety
import ZoneSkims.Proofs.Skim.Transit
import ZoneSkims.Proofs.Transit.Optimality

/-!
# One mask for all matrices of a run

The matrices of a run can be read side by side, since all of them have the ids of the zones and
their computed cells are the same. By transit these are the cells of zones that are near each other,
which does not depend on the direction. By road there are no others, and without a limit on cost
none is missing. Averages keep the mask: what a departure stores is a measure, so that no sum is
undefined, and scaling leaves no cell empty.

* `Matrix.HasMask`: the ids of a matrix and its computed cells.
* `Zones.Near`: the pairs of ids of zones that are near each other.
* `isSome_averageCell`: a cell of averages is computed when a departure has computed it.
* `Calculator.masks_shared`: the masks of the matrices of a calculator.
-/

namespace ZoneSkims

variable {α β : Type} [Scalar α]

/-! ## Masks -/

/-- Rows and columns have these ids, and the cells of the mask are computed and no others. -/
structure Matrix.HasMask (m : Matrix ZoneId β) (ids : Array ZoneId)
    (mask : ZoneId → ZoneId → Prop) : Prop where
  rowIds_eq : m.rowIds = ids
  colIds_eq : m.colIds = ids
  isSome_iff : ∀ row col, (m.get? row col).isSome = true ↔ mask row col

theorem Matrix.HasMask.congr {m : Matrix ZoneId β} {ids : Array ZoneId}
    {mask mask' : ZoneId → ZoneId → Prop} (h : m.HasMask ids mask)
    (hmask : ∀ a b, mask a b ↔ mask' a b) : m.HasMask ids mask' :=
  ⟨h.rowIds_eq, h.colIds_eq, fun row col => (h.isSome_iff row col).trans (hmask row col)⟩

theorem Matrix.mem_of_isSome_get? {m : Matrix ZoneId β} {row col : ZoneId}
    (h : (m.get? row col).isSome = true) : row ∈ m.rowIds ∧ col ∈ m.colIds := by
  rw [get?_eq] at h
  split at h
  case isTrue hknown =>
    obtain ⟨hrow, hcol⟩ := PartialMap.knows_singleton.mp hknown
    exact ⟨Array.mem_toList_iff.mp hrow, Array.mem_toList_iff.mp hcol⟩
  case isFalse => cases h

namespace Zones

variable {zones : Zones α} {radius : Option α} {p q : Nat → Nat → Prop} {a b : ZoneId}

/-- These are the ids of zones whose centres are within a radius, if there is one. -/
def Near (zones : Zones α) (radius : Option α) (a b : ZoneId) : Prop :=
  ∃ origin ∈ zones.zones, ∃ destination ∈ zones.zones,
    origin.id = a ∧ destination.id = b ∧ origin.isNear radius destination = true

instance (zones : Zones α) (radius : Option α) (a b : ZoneId) :
    Decidable (zones.Near radius a b) :=
  inferInstanceAs (Decidable (∃ origin ∈ zones.zones, ∃ destination ∈ zones.zones, _))

theorem isNear_comm [LawfulSquare α] (origin destination : Zone α) (radius : Option α) :
    origin.isNear radius destination = destination.isNear radius origin := by
  rw [Zone.isNear, Zone.isNear, Coord.distance_comm]

theorem Near.symm [LawfulSquare α] (h : zones.Near radius a b) : zones.Near radius b a := by
  obtain ⟨origin, horigin, destination, hdestination, ha, hb, hnear⟩ := h
  exact ⟨destination, hdestination, origin, horigin, hb, ha, isNear_comm origin _ _ ▸ hnear⟩

omit [Scalar α] in
/-- These are the ids of zones at two positions with a property. -/
def At (zones : Zones α) (p : Nat → Nat → Prop) (a b : ZoneId) : Prop :=
  ∃ row col origin destination, zones.zones[row]? = some origin ∧
    zones.zones[col]? = some destination ∧ origin.id = a ∧ destination.id = b ∧ p row col

theorem At.near (h : zones.At p a b) (hp : ∀ row col origin destination,
    zones.zones[row]? = some origin → zones.zones[col]? = some destination → p row col →
      origin.isNear radius destination = true) : zones.Near radius a b := by
  obtain ⟨row, col, origin, destination, horigin, hdestination, ha, hb, hrow⟩ := h
  exact ⟨origin, Array.mem_of_getElem? horigin, destination, Array.mem_of_getElem? hdestination,
    ha, hb, hp row col origin destination horigin hdestination hrow⟩

theorem Near.at (h : zones.Near radius a b) (hp : ∀ row col origin destination,
    zones.zones[row]? = some origin → zones.zones[col]? = some destination →
      origin.isNear radius destination = true → p row col) : zones.At p a b := by
  obtain ⟨origin, horigin, destination, hdestination, ha, hb, hnear⟩ := h
  obtain ⟨row, horigin⟩ := Array.getElem?_of_mem horigin
  obtain ⟨col, hdestination⟩ := Array.getElem?_of_mem hdestination
  exact ⟨row, col, origin, destination, horigin, hdestination, ha, hb,
    hp row col origin destination horigin hdestination hnear⟩

omit [Scalar α] in
/-- A matrix over the zones is masked by the positions whose cells are computed. -/
theorem hasMask_at {m : Matrix ZoneId β} (hids : zones.ids.toList.Nodup)
    (hrows : m.rowIds = zones.ids) (hcols : m.colIds = zones.ids)
    (hcells : ∀ row < zones.size, ∀ col < zones.size,
      (m.cell row col).isSome = true ↔ p row col) : m.HasMask zones.ids (zones.At p) := by
  refine ⟨hrows, hcols, fun a b => ⟨fun hsome => ?_, ?_⟩⟩
  · obtain ⟨ha, hb⟩ := Matrix.mem_of_isSome_get? hsome
    rw [hrows, ids] at ha
    rw [hcols, ids] at hb
    obtain ⟨origin, horigin, rfl⟩ := Array.mem_map.mp ha
    obtain ⟨destination, hdestination, rfl⟩ := Array.mem_map.mp hb
    obtain ⟨row, horigin⟩ := Array.getElem?_of_mem horigin
    obtain ⟨col, hdestination⟩ := Array.getElem?_of_mem hdestination
    refine ⟨row, col, origin, destination, horigin, hdestination, rfl, rfl, ?_⟩
    rw [Matrix.get?_eq_cell (hrows ▸ hids) (hcols ▸ hids) (hrows ▸ getElem?_ids horigin)
      (hcols ▸ getElem?_ids hdestination)] at hsome
    exact (hcells row (Array.getElem?_eq_some_iff.mp horigin).1 col
      (Array.getElem?_eq_some_iff.mp hdestination).1).mp hsome
  · rintro ⟨row, col, origin, destination, horigin, hdestination, rfl, rfl, hp⟩
    rw [Matrix.get?_eq_cell (hrows ▸ hids) (hcols ▸ hids) (hrows ▸ getElem?_ids horigin)
      (hcols ▸ getElem?_ids hdestination)]
    exact (hcells row (Array.getElem?_eq_some_iff.mp horigin).1 col
      (Array.getElem?_eq_some_iff.mp hdestination).1).mpr hp

end Zones

variable [Scalar β] [Narrowing α β] {zones : Zones α} {config : Configuration α} {row col : Nat}
  {origin destination : Zone α}

/-! ## Transit -/

/-- A row gives values for all matrices to the cells of near zones. -/
theorem isSome_transitRow {access : Array (List (List (NearStop α)))} {router : TransitRouter α}
    {cells : RowCells β} {k : Nat} (hk : k < 9) (haccess : accessByZone zones router = .ok access)
    (hcells : storable (transitRow zones access router config) row = .ok cells)
    (horigin : zones.zones[row]? = some origin)
    (hdestination : zones.zones[col]? = some destination) :
    (valueAt (cellsOf (transitRow (β := β) zones access router config) row) k col).isSome =
      origin.isNear config.maxBeeline destination := by
  have hcell := cell_of_near haccess horigin hdestination (storable_eq_ok hcells).1
  rw [cellsOf_eq hcells, valueAt]
  split at hcell
  case isTrue hnear =>
    obtain ⟨found, -, hcell⟩ := hcell
    have hvalue : ((transitCell (β := β) found)[k]?).isSome = true := by
      rw [List.getElem?_eq_getElem (length_transitCell (β := β) found ▸ hk), Option.isSome_some]
    rw [hcell, hnear]
    exact hvalue
  case isFalse hfar =>
    rw [hcell, Bool.eq_false_of_not_eq_true hfar]
    rfl

/-- The cells of near zones are computed in every matrix, and no others. -/
theorem hasMask_of_transit {access : Array (List (List (NearStop α)))} {router : TransitRouter α}
    {m : Matrix ZoneId β} (hids : zones.ids.toList.Nodup)
    (haccess : accessByZone zones router = .ok access)
    (hrows : ∀ row < zones.size, ∃ cells,
      storable (transitRow (β := β) zones access router config) row = .ok cells)
    (hm : m ∈ (transitMatricesOf zones access router config).toList) :
    m.HasMask zones.ids (zones.Near config.maxBeeline) := by
  rw [toList_transitMatricesOf] at hm
  obtain ⟨k, hk, rfl⟩ := List.mem_map.mp hm
  rw [List.mem_range] at hk
  have hsize : (Matrix.blank (β := β) zones.ids).rows = zones.size := Array.size_map
  have hsize' : (Matrix.blank (β := β) zones.ids).cols = zones.size := Array.size_map
  have hmask := Zones.hasMask_at (p := fun row col => (valueAt
    (cellsOf (transitRow (β := β) zones access router config) row) k col).isSome = true)
    hids rfl rfl fun row hr col hc => by
      rw [Matrix.cell_withCells (hsize ▸ hr) (hsize' ▸ hc)]
  have hcell : ∀ row col origin destination, zones.zones[row]? = some origin →
      zones.zones[col]? = some destination →
        (valueAt (cellsOf (transitRow (β := β) zones access router config) row) k col).isSome =
          origin.isNear config.maxBeeline destination := by
    intro row col origin destination horigin hdestination
    obtain ⟨cells, hcells⟩ := hrows row (Array.getElem?_eq_some_iff.mp horigin).1
    exact isSome_transitRow hk haccess hcells horigin hdestination
  refine hmask.congr fun a b => ⟨fun h => h.near ?_, fun h => h.at ?_⟩
  · intro row col origin destination horigin hdestination hsome
    rwa [hcell row col origin destination horigin hdestination] at hsome
  · intro row col origin destination horigin hdestination hnear
    rwa [hcell row col origin destination horigin hdestination]

/-! ## Cells of a departure by road -/

/-- Both values of a cell are computed unless no pair is connected and cost is limited. -/
theorem isSome_roadCell (limited : Bool) (pairs : List (α × α)) {k : Nat} (hk : k < 2) :
    ((roadCell (β := β) limited pairs).bind fun values => values[k]?).isSome =
      !(pairs.isEmpty && limited) := by
  unfold roadCell
  have hpair : ∀ a b : β, ([a, b][k]?).isSome = true := by
    intro a b
    rw [List.getElem?_eq_getElem hk, Option.isSome_some]
  cases pairs.isEmpty with
  | false => exact hpair _ _
  | true =>
    cases limited with
    | false => exact hpair _ _
    | true => rfl

variable {snapped : Array (List NodeId)} {search : RoadSearch α} {departure : α}

/-- For a departure, the cells of travel time and distance are computed together. -/
theorem isSome_roadRow {cells : RowCells β}
    (hsnapped : nodesOfZones zones search.network = .ok snapped)
    (hcells : storable (roadRow zones snapped search config departure) row = .ok cells)
    (horigin : zones.zones[row]? = some origin)
    (hdestination : zones.zones[col]? = some destination) :
    ∃ pairs : List (α × α), ∀ k < 2,
      (valueAt (cellsOf (roadRow (β := β) zones snapped search config departure) row) k
        col).isSome = (origin.isNear config.maxBeeline destination &&
          !(pairs.isEmpty && config.costLimit.isSome)) := by
  obtain ⟨nodes, trees, hfilled⟩ := exists_filledRow hsnapped horigin hcells
  obtain ⟨near, others, hnear, -, hcell⟩ :=
    hfilled.cells_eq col (Array.getElem?_eq_some_iff.mp hdestination).1
  obtain rfl : origin.isNear config.maxBeeline destination = near :=
    Except.ok.inj ((within_eq _ horigin hdestination).symm.trans hnear)
  refine ⟨connectedPairs trees others, fun k hk => ?_⟩
  rw [valueAt, hcell]
  cases origin.isNear config.maxBeeline destination with
  | false => rfl
  | true => exact isSome_roadCell _ _ hk

/-! ## Measures in cells -/

section Measures

variable [LawfulScalar α] [LawfulSum α] [LawfulCells α β]

theorem not_lt_zero_of_roadCell {limited : Bool} {pairs : List (α × α)}
    (hpairs : ∀ pair ∈ pairs, Scalar.IsMeasure pair.1 ∧ Scalar.IsMeasure pair.2)
    {values : List β} (h : roadCell limited pairs = some values) :
    ∀ value ∈ values, ¬ value < 0 := by
  have hmean : ∀ f : α × α → α, (∀ pair ∈ pairs, Scalar.IsMeasure (f pair)) →
      ¬ (narrow (meanOf (pairs.map f)) : β) < 0 := by
    intro f hf
    have hsum : Scalar.IsMeasure ((pairs.map f).foldl (· + ·) 0) :=
      Scalar.IsMeasure.foldl_add (List.forall_mem_map.mpr hf) Scalar.isMeasure_zero
    exact LawfulCells.not_narrow_lt_zero
      (LawfulCells.not_div_ofNat_lt_zero (β := β) _ hsum.not_lt_zero)
  unfold roadCell at h
  split at h
  · split at h <;> cases h
    intro value hvalue
    rcases List.mem_pair.mp hvalue with rfl | rfl <;> exact LawfulCells.not_infinity_lt_zero α
  · cases h
    intro value hvalue
    rcases List.mem_pair.mp hvalue with rfl | rfl
    · exact hmean _ fun pair hpair => (hpairs pair hpair).1
    · exact hmean _ fun pair hpair => (hpairs pair hpair).2

/-- Along links whose lengths are measures, what a departure stores are measures. -/
theorem isMeasure_of_valueAt [LawfulMeasure α] (hdeparture : Scalar.isFinite departure = true)
    (hlengths : ∀ link ∈ search.network.links, Scalar.IsMeasure link.length)
    (hsnapped : nodesOfZones zones search.network = .ok snapped) (hrow : row < zones.size)
    (hcol : col < zones.size) {cells : RowCells β}
    (hcells : storable (roadRow zones snapped search config departure) row = .ok cells)
    {k : Nat} {value : β}
    (hvalue : valueAt (cellsOf (roadRow zones snapped search config departure) row) k col =
      some value) : Scalar.IsMeasure value := by
  refine ⟨isNumber_of_valueAt hvalue, ?_⟩
  obtain ⟨nodes, trees, hfilled⟩ :=
    exists_filledRow hsnapped (Array.getElem?_eq_getElem hrow) hcells
  obtain ⟨near, others, -, -, hcell⟩ := hfilled.cells_eq col hcol
  rw [valueAt, hcell] at hvalue
  obtain ⟨values, hvalues, hmem⟩ := Option.bind_eq_some_iff.mp hvalue
  cases near with
  | false => cases hvalues
  | true =>
    refine not_lt_zero_of_roadCell (fun pair hpair => ?_) hvalues _
      (List.mem_of_getElem? hmem)
    exact isMeasure_of_connectedPairs hdeparture hlengths hfilled.searched hpair

end Measures

/-! ## Averages -/

section Averages

variable [LawfulTotals β]

omit [Scalar α] [Narrowing α β] in
/-- A sum of cells that hold measures is computed when one of them is. -/
theorem isSome_foldl_increasedBy (cells : List (Option β)) (total : Option β)
    (htotal : ∀ value, total = some value → Scalar.IsMeasure value)
    (hcells : ∀ value, some value ∈ cells → Scalar.IsMeasure value) :
    (cells.foldl increasedBy total).isSome = (total.isSome || cells.any Option.isSome) := by
  induction cells generalizing total with
  | nil => simp
  | cons cell cells ih =>
    have hrest := fun value hvalue => hcells value (List.mem_cons_of_mem cell hvalue)
    rw [List.foldl_cons, List.any_cons]
    cases cell with
    | none => exact ih total htotal hrest
    | some value =>
      have hvalue := hcells value List.mem_cons_self
      obtain ⟨sum, hsum, hmeasure⟩ :
          ∃ sum, increasedBy total (some value) = some sum ∧ Scalar.IsMeasure sum := by
        cases total with
        | none => exact ⟨value, if_neg (by rw [hvalue.isNumber]; decide), hvalue⟩
        | some current =>
          have hadd := LawfulTotals.isMeasure_add (htotal current rfl) hvalue
          exact ⟨current + value, if_neg (by rw [hadd.isNumber]; decide), hadd⟩
      rw [hsum, ih (some sum) (by rintro _ ⟨⟩; exact hmeasure) hrest]
      simp

omit [Scalar α] [Narrowing α β] in
/-- A cell of averages is computed when a departure has computed it. -/
theorem isSome_averageCell {cells : List (Option β)}
    (hcells : ∀ value, some value ∈ cells → Scalar.IsMeasure value) :
    (averageCell cells).isSome = cells.any Option.isSome := by
  have hnone : ∀ value : β, none = some value → Scalar.IsMeasure value := by simp
  rw [averageCell, Option.isSome_map, isSome_foldl_increasedBy cells none hnone hcells]
  rfl

variable [LawfulScalar α] [LawfulSum α] [LawfulMeasure α] [LawfulCells α β] [LawfulUnit β]

/-- The cells of averages are computed for which a departure has computed the cell. -/
theorem isSome_averagesWith (hdepartures : config.departures ≠ [])
    (hfinite : ∀ time ∈ config.departures, Scalar.isFinite time = true)
    (hlengths : ∀ link ∈ search.network.links, Scalar.IsMeasure link.length)
    (hsnapped : nodesOfZones zones search.network = .ok snapped) (hrow : row < zones.size)
    (hcol : col < zones.size)
    (hrows : ∀ departure ∈ slices search config, ∃ cells,
      storable (roadRow (β := β) zones snapped search config departure) row = .ok cells) :
    ((averagesWith (β := β) zones snapped search config).travelTime.cell row col).isSome =
        ((slices search config).any fun departure => (valueAt (cellsOf
          (roadRow (β := β) zones snapped search config departure) row) 0 col).isSome) ∧
      ((averagesWith (β := β) zones snapped search config).distance.cell row col).isSome =
        ((slices search config).any fun departure => (valueAt (cellsOf
          (roadRow (β := β) zones snapped search config departure) row) 1 col).isSome) := by
  obtain ⟨htime, hdistance⟩ := cells_averagesWith (β := β) snapped search hrow hcol hdepartures
  have hslice := fun departure =>
    cells_sliceWith (β := β) snapped search config departure hrow hcol
  have hmeasure : ∀ k, ∀ value, some value ∈ (slices search config).map (fun departure =>
      valueAt (cellsOf (roadRow (β := β) zones snapped search config departure) row) k col) →
        Scalar.IsMeasure value := by
    intro k value hvalue
    obtain ⟨departure, hmem, hvalue⟩ := List.mem_map.mp hvalue
    obtain ⟨cells, hcells⟩ := hrows departure hmem
    exact isMeasure_of_valueAt (hfinite departure (mem_of_mem_slices hmem)) hlengths hsnapped hrow
      hcol hcells hvalue
  simp only [hslice] at htime hdistance
  rw [htime, hdistance, isSome_averageCell (hmeasure 0), isSome_averageCell (hmeasure 1),
    List.any_map, List.any_map]
  exact ⟨rfl, rfl⟩

/-- The cells at a position are computed together, for near zones alone, and without a limit on
cost for all of these. -/
structure RoadMatrices.SharedCell (m : RoadMatrices ZoneId β) (limit : Option α) (row col : Nat)
    (near : Bool) : Prop where
  distance_eq : (m.distance.cell row col).isSome = (m.travelTime.cell row col).isSome
  near_of_computed : (m.travelTime.cell row col).isSome = true → near = true
  computed_of_near : limit = none → near = true → (m.travelTime.cell row col).isSome = true

variable (hdepartures : config.departures ≠ [])
  (hfinite : ∀ time ∈ config.departures, Scalar.isFinite time = true)
  (hlengths : ∀ link ∈ search.network.links, Scalar.IsMeasure link.length)
  (hsnapped : nodesOfZones zones search.network = .ok snapped)
  (hrows : ∀ row < zones.size, ∀ departure ∈ slices search config, ∃ cells,
    storable (roadRow (β := β) zones snapped search config departure) row = .ok cells)

include hdepartures hfinite hlengths hsnapped hrows

theorem sharedCell_averagesWith (horigin : zones.zones[row]? = some origin)
    (hdestination : zones.zones[col]? = some destination) :
    (averagesWith (β := β) zones snapped search config).SharedCell config.costLimit row col
      (origin.isNear config.maxBeeline destination) := by
  have hrow : row < zones.size := (Array.getElem?_eq_some_iff.mp horigin).1
  have hcol : col < zones.size := (Array.getElem?_eq_some_iff.mp hdestination).1
  obtain ⟨htime, hdistance⟩ := isSome_averagesWith (β := β) hdepartures hfinite hlengths hsnapped
    hrow hcol (hrows row hrow)
  have hcell := fun departure hmem => (hrows row hrow departure hmem).elim fun cells hcells =>
    isSome_roadRow (β := β) hsnapped hcells horigin hdestination
  constructor
  case distance_eq =>
    rw [htime, hdistance, Bool.eq_iff_iff, List.any_eq_true, List.any_eq_true]
    refine exists_congr fun departure => and_congr_right fun hmem => ?_
    obtain ⟨pairs, hpairs⟩ := hcell departure hmem
    rw [hpairs 0 (by decide), hpairs 1 (by decide)]
  case near_of_computed =>
    intro hcomputed
    rw [htime] at hcomputed
    obtain ⟨departure, hmem, hsome⟩ := List.any_eq_true.mp hcomputed
    obtain ⟨pairs, hpairs⟩ := hcell departure hmem
    rw [hpairs 0 (by decide), Bool.and_eq_true] at hsome
    exact hsome.1
  case computed_of_near =>
    intro hunlimited hnear
    obtain ⟨departure, hmem⟩ := List.exists_mem_of_ne_nil _ (slices_ne_nil search hdepartures)
    obtain ⟨pairs, hpairs⟩ := hcell departure hmem
    rw [htime]
    refine List.any_eq_true.mpr ⟨departure, hmem, ?_⟩
    rw [hpairs 0 (by decide), hnear, hunlimited]
    simp

/-- The averages over departures have a mask in common. -/
theorem exists_mask_averagesWith (hids : zones.ids.toList.Nodup) :
    ∃ mask, (averagesWith (β := β) zones snapped search config).travelTime.HasMask zones.ids mask ∧
      (averagesWith (β := β) zones snapped search config).distance.HasMask zones.ids mask ∧
      (∀ a b, mask a b → zones.Near config.maxBeeline a b) ∧
      (config.costLimit = none → ∀ a b, zones.Near config.maxBeeline a b → mask a b) := by
  have hshared : ∀ row col origin destination, zones.zones[row]? = some origin →
      zones.zones[col]? = some destination →
        (averagesWith (β := β) zones snapped search config).SharedCell config.costLimit row col
          (origin.isNear config.maxBeeline destination) := fun _ _ _ _ =>
    sharedCell_averagesWith hdepartures hfinite hlengths hsnapped hrows
  obtain ⟨⟨hrow, hcol⟩, ⟨hrow', hcol'⟩, -, -⟩ :
      (averagesWith (β := β) zones snapped search config).Over zones.ids := over_averagesWith
  refine ⟨zones.At fun row col =>
      ((averagesWith (β := β) zones snapped search config).travelTime.cell row col).isSome = true,
    Zones.hasMask_at hids hrow hcol fun _ _ _ _ => Iff.rfl,
    Zones.hasMask_at hids hrow' hcol' fun row hr col hc => ?_,
    fun a b h => h.near fun row col _ _ horigin hdestination =>
      (hshared row col _ _ horigin hdestination).near_of_computed,
    fun hunlimited a b h => h.at fun row col _ _ horigin hdestination =>
      (hshared row col _ _ horigin hdestination).computed_of_near hunlimited⟩
  have hcell := hshared row col _ _ (Array.getElem?_eq_getElem hr) (Array.getElem?_eq_getElem hc)
  rw [hcell.distance_eq]

end Averages

/-! ## Calculators -/

/-- The matrices of a calculator have its zones for ids. Those by transit have the zones near each
other for a mask, which is symmetric. Those by road have a mask in common, which is within that one
and without a limit on cost the same. -/
theorem Calculator.masks_shared [LawfulScalar α] [LawfulSum α] [LawfulMeasure α] [LawfulSquare α]
    [LawfulCells α β] [LawfulTotals β] [LawfulUnit β] {coords : ZoneTable (List (Coord α))}
    {calculator : Calculator α} {log : List (Notice α)} {turns : List Nat}
    (hcoords : (coords.map Prod.fst).Nodup)
    (hnew : (Calculator.new config coords).result log = .ok calculator)
    (hturns : turns.Perm (List.range calculator.pool.workers)) :
    (∀ timetable isTrain log' (matrices : TransitMatrices ZoneId β),
      ((calculator.withTurns turns).transitWith timetable isTrain).result log' = .ok matrices →
        ∀ m ∈ matrices.toList,
          m.HasMask calculator.zones.ids (calculator.zones.Near config.maxBeeline)) ∧
    (∀ a b, calculator.zones.Near config.maxBeeline a b →
      calculator.zones.Near config.maxBeeline b a) ∧
    ∀ search log' (matrices : RoadMatrices ZoneId β),
      (∀ link ∈ search.network.links, Scalar.IsMeasure link.length) →
      ((calculator.withTurns turns).road search).result log' = .ok matrices →
        ∃ mask, matrices.travelTime.HasMask calculator.zones.ids mask ∧
          matrices.distance.HasMask calculator.zones.ids mask ∧
          (∀ a b, mask a b → calculator.zones.Near config.maxBeeline a b) ∧
          (config.costLimit = none → ∀ a b, calculator.zones.Near config.maxBeeline a b →
            mask a b) := by
  have made := made_of_new hnew
  have hids := made.nodup_ids hcoords
  refine ⟨fun timetable isTrain log' matrices hrun m hm => ?_, fun a b => Zones.Near.symm,
    fun search log' matrices hlengths hrun => ?_⟩
  · rw [transitWith, withTurns, made.config_eq] at hrun
    obtain ⟨router, -, hrun⟩ := Run.exists_of_orFault hrun
    obtain ⟨access, haccess, rfl, hrows⟩ :=
      transitMatrices_of_run hids made.nonempty (made.complete hturns) hrun
    exact hasMask_of_transit hids haccess hrows hm
  · rw [road, withTurns, made.config_eq] at hrun
    obtain ⟨snapped, hsnapped, rfl, hrows⟩ := averages_of_run hids made.nonempty
      (made.complete hturns) made.valid.departures_ne_nil hrun
    exact exists_mask_averagesWith made.valid.departures_ne_nil made.valid.isFinite_departure
      hlengths hsnapped hrows hids

/-! ## Suburbs -/

/-- Two suburbs a walk apart, and a third one at the other end of the shuttle. -/
def suburbs : ZoneTable (List (Coord Float)) :=
  [("a", [⟨0, 0⟩]), ("b", [⟨500, 500⟩]), ("c", [⟨4000, 0⟩])]

/-- The zones of the suburbs. -/
def suburbZones : Zones Float :=
  { zones := (Zones.ofTable suburbs).toArray
    dropped := suburbs.length - (Zones.ofTable suburbs).length }

/-- Two departures, and a radius that leaves the first suburb and the last one apart. -/
def shortWays : Configuration Float :=
  { Configuration.standard 1 with
    departures := [8.0 * 3600.0, 9.0 * 3600.0]
    window := { start := 540, finish := 660 }
    maxBeeline := some 3800
    router := patient }

/-- The crossings, with costs that may depend on the time of day. -/
def watchedSearch : RoadSearch Float :=
  { crossingSearch with cost := { crossingSearch.cost with timeInvariant := false } }

theorem valid_shortWays : shortWays.Valid :=
  Configuration.valid_of_isSome (by decide +kernel)

theorem isMeasure_crossings : ∀ link ∈ watchedSearch.network.links,
    Scalar.IsMeasure link.length := by
  have hlengths : ∀ link ∈ crossings.links.toList,
      Scalar.isNaN link.length = false ∧ ¬ link.length < 0 := by decide +kernel
  intro link hlink
  obtain ⟨hnumber, hsign⟩ := hlengths link (Array.mem_toList_iff.mpr hlink)
  exact ⟨hnumber, hsign⟩

/-- The second suburb is near both others, which are not near each other. -/
theorem masks_shared_suburbs : ∃ (calculator : Calculator Float)
    (transit : TransitMatrices ZoneId Float32) (road : RoadMatrices ZoneId Float32)
    (mask : ZoneId → ZoneId → Prop), (suburbs.map Prod.fst).Nodup ∧
      (Calculator.new shortWays suburbs).result [] = .ok calculator ∧
      [0].Perm (List.range calculator.pool.workers) ∧
      ((calculator.withTurns [0]).transitWith shuttleTimetable fun _ => false).result [] =
        .ok transit ∧
      (∀ link ∈ watchedSearch.network.links, Scalar.IsMeasure link.length) ∧
      ((calculator.withTurns [0]).road watchedSearch).result [] = .ok road ∧
      shortWays.costLimit = none ∧
      (∀ m ∈ transit.toList, m.HasMask calculator.zones.ids (calculator.zones.Near (some 3800))) ∧
      road.travelTime.HasMask calculator.zones.ids mask ∧
      road.distance.HasMask calculator.zones.ids mask ∧
      (∀ a b, mask a b ↔ calculator.zones.Near (some 3800) a b) ∧
      calculator.zones.Near (some 3800) "c" "b" ∧ ¬ calculator.zones.Near (some 3800) "c" "a" := by
  have hcoords : (suburbs.map Prod.fst).Nodup := by decide
  have hids : (Zones.ofTable suburbs).map Zone.id = ["a", "b", "c"] := by decide +kernel
  obtain ⟨calculator, hnew⟩ :=
    Calculator.exists_of_valid valid_shortWays (Zones.ne_nil_of_ids hids) []
  have made := Calculator.made_of_new hnew
  have hzones : calculator.zones = suburbZones := made.zones_eq
  have hturns : [0].Perm (List.range calculator.pool.workers) := by
    rw [made.pool_eq]
    decide
  obtain ⟨transit, htransit⟩ : ∃ transit : TransitMatrices ZoneId Float32,
      ((calculator.withTurns [0]).transitWith shuttleTimetable fun _ => false).result [] =
        .ok transit := by
    have hsome : ((transitMatrices (β := Float32) suburbZones shuttleRouter shortWays
        { Pool.ofSize 1 with turns := [0] }).result []).toOption.isSome = true := by
      decide +kernel
    have hrouter : TransitRouter.new shuttleTimetable shortWays.router (fun _ => false) =
        .ok shuttleRouter := new_shuttle
    rw [Calculator.transitWith, Calculator.withTurns, hzones, made.config_eq, made.pool_eq,
      Run.orFault_ok hrouter, pure_bind]
    exact exists_of_isSome hsome
  obtain ⟨road, hroad⟩ : ∃ road : RoadMatrices ZoneId Float32,
      ((calculator.withTurns [0]).road watchedSearch).result [] = .ok road := by
    have hsome : ((roadMatrices (β := Float32) suburbZones watchedSearch shortWays
        { Pool.ofSize 1 with turns := [0] }).result []).toOption.isSome = true := by
      decide +kernel
    rw [Calculator.road, Calculator.withTurns, hzones, made.config_eq, made.pool_eq]
    exact exists_of_isSome hsome
  obtain ⟨hmasks, hsymm, hshared⟩ := Calculator.masks_shared (β := Float32) hcoords hnew hturns
  obtain ⟨mask, htime, hdistance, hnear, hall⟩ := hshared _ _ _ isMeasure_crossings hroad
  refine ⟨calculator, transit, road, mask, hcoords, hnew, hturns, htransit, isMeasure_crossings,
    hroad, rfl, hmasks _ _ _ _ htransit, htime, hdistance,
    fun a b => ⟨hnear a b, hall rfl a b⟩, hsymm _ _ ?_, ?_⟩
  · rw [hzones]
    decide +kernel
  · rw [hzones]
    decide +kernel

end ZoneSkims
