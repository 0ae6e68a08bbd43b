import ZoneSkims.Proofs.Matrix.Combine
import ZoneSkims.Proofs.Scalar.Single
import ZoneSkims.Proofs.Skim.Assembly
import ZoneSkims.Proofs.Skim.Run

/-!
# The cells of road matrices

The matrices of one departure have the cells that the rows are filled with. The averages add these
up over the departures, one after the other, and scale the sums.

* `sliceWith`, `roadSlice_performs`: the matrices of one departure.
* `averagesWith`, `roadMatrices_performs`: the averages.
* `cells_averagesWith`: their cells.
-/

namespace ZoneSkims

variable {ι α β : Type}

/-- All workers take one turn each. -/
structure Pool.Complete (pool : Pool) : Prop where
  workers_pos : 0 < pool.workers
  turns_perm : pool.turns.Perm (List.range pool.workers)

variable [Scalar β]

/-- Matrices that are filled from empty ones have the values of the rows. -/
theorem fillRows_blank_performs {ε : Type} {pool : Pool} {work : Nat → Outcome ε (RowCells β)}
    (ids : Array ι) {depth : Nat} (hpool : pool.Complete) (hdepth : depth ≠ 0)
    (hwork : Fits work ids.size ids.size depth) :
    Performs (storable work) (List.range ids.size)
      (fillRows pool (List.replicate depth (Matrix.blank ids)) work)
      ((List.range depth).map fun k =>
        (Matrix.blank ids).withCells fun row col => valueAt (cellsOf work row) k col) := by
  have hfilled : filledWith work (List.replicate depth (Matrix.blank ids)) =
      (List.range depth).map fun k =>
        (Matrix.blank ids).withCells fun row col => valueAt (cellsOf work row) k col := by
    refine List.ext_getElem (by simp [filledWith]) fun k hk hk' => ?_
    simp [filledWith]
  have hne : List.replicate depth (Matrix.blank (β := β) ids) ≠ [] := by
    simpa using hdepth
  have haligned : Aligned (List.replicate depth (Matrix.blank (β := β) ids)) ids.size ids.size := by
    intro m hm
    obtain rfl := List.eq_of_mem_replicate hm
    exact ⟨Matrix.wellFormed_blank ids, rfl, rfl⟩
  rw [← hfilled]
  exact fillRows_performs hpool.workers_pos hpool.turns_perm hne haligned
    (by rwa [List.length_replicate])

namespace RoadMatrices

/-- The matrices over ids with the cells of two functions. -/
def ofCells (ids : Array ι) (travelTime distance : Nat → Nat → Option β) : RoadMatrices ι β :=
  { travelTime := (Matrix.blank ids).withCells travelTime
    distance := (Matrix.blank ids).withCells distance }

/-- The matrices over ids in which no cell is computed. -/
def blank (ids : Array ι) : RoadMatrices ι β :=
  { travelTime := Matrix.blank ids, distance := Matrix.blank ids }

/-- The matrices have the given ids and all their cells. -/
structure Over (ids : Array ι) (m : RoadMatrices ι β) : Prop where
  travelTime_ids : m.travelTime.rowIds = ids ∧ m.travelTime.colIds = ids
  distance_ids : m.distance.rowIds = ids ∧ m.distance.colIds = ids
  travelTime_wellFormed : m.travelTime.WellFormed
  distance_wellFormed : m.distance.WellFormed

/-- The cells of `m` increased by those of `other`. -/
def increasedBy (m other : RoadMatrices ι β) : RoadMatrices ι β :=
  { travelTime := m.travelTime.withCells fun row col =>
      ZoneSkims.increasedBy (m.travelTime.cell row col) (other.travelTime.cell row col)
    distance := m.distance.withCells fun row col =>
      ZoneSkims.increasedBy (m.distance.cell row col) (other.distance.cell row col) }

variable {ids : Array ι} {m other : RoadMatrices ι β}

omit [Scalar β] in
theorem over_ofCells (ids : Array ι) (travelTime distance : Nat → Nat → Option β) :
    Over ids (ofCells ids travelTime distance) :=
  ⟨⟨rfl, rfl⟩, ⟨rfl, rfl⟩, Matrix.wellFormed_withCells .., Matrix.wellFormed_withCells ..⟩

omit [Scalar β] in
theorem over_blank (ids : Array ι) : Over ids (blank (β := β) ids) :=
  ⟨⟨rfl, rfl⟩, ⟨rfl, rfl⟩, Matrix.wellFormed_blank ids, Matrix.wellFormed_blank ids⟩

theorem Over.increasedBy (h : Over ids m) : Over ids (m.increasedBy other) :=
  ⟨h.travelTime_ids, h.distance_ids, Matrix.wellFormed_withCells ..,
    Matrix.wellFormed_withCells ..⟩

theorem Over.scale (h : Over ids m) (factor : β) : Over ids (m.scale factor) :=
  ⟨h.travelTime_ids, h.distance_ids, Matrix.wellFormed_scale h.travelTime_wellFormed factor,
    Matrix.wellFormed_scale h.distance_wellFormed factor⟩

variable [DecidableEq ι]

omit [Scalar β] in
theorem new_eq (hids : ids.toList.Nodup) :
    (RoadMatrices.new ids : Except MatrixError (RoadMatrices ι β)) = .ok (blank ids) := by
  have h : Matrix.square ids = .ok (Matrix.blank (β := β) ids) :=
    Matrix.square_eq_ok.mpr ⟨hids, rfl⟩
  rw [RoadMatrices.new, h]
  rfl

/-- Matrices over the same ids can be added. -/
theorem combine_eq (hids : ids.toList.Nodup) (h : Over ids m) (h' : Over ids other) :
    m.combine other = .ok (m.increasedBy other) := by
  obtain ⟨⟨hr, hc⟩, ⟨hr', hc'⟩, hwf, hwf'⟩ := h
  obtain ⟨⟨gr, gc⟩, ⟨gr', gc'⟩, gwf, gwf'⟩ := h'
  rw [RoadMatrices.combine, Matrix.combine_eq (hr ▸ hids) (hc ▸ hids) (gr.trans hr.symm)
    (gc.trans hc.symm) hwf gwf, Matrix.combine_eq (hr' ▸ hids) (hc' ▸ hids) (gr'.trans hr'.symm)
    (gc'.trans hc'.symm) hwf' gwf']
  rfl

end RoadMatrices

omit [Scalar β] in
theorem Zones.getElem?_ids {zones : Zones α} {i : Nat} {zone : Zone α}
    (h : zones.zones[i]? = some zone) : zones.ids[i]? = some zone.id := by
  rw [ids, Array.getElem?_map, h]
  rfl

omit [Scalar β] in
/-- The cells of two zones are those of their positions. -/
theorem RoadMatrices.Over.get?_eq {zones : Zones α} {m : RoadMatrices ZoneId β}
    (h : m.Over zones.ids) (hids : zones.ids.toList.Nodup) {row col : Nat}
    {origin destination : Zone α} (horigin : zones.zones[row]? = some origin)
    (hdestination : zones.zones[col]? = some destination) :
    m.travelTime.get? origin.id destination.id = m.travelTime.cell row col ∧
      m.distance.get? origin.id destination.id = m.distance.cell row col := by
  have horigin := Zones.getElem?_ids horigin
  have hdestination := Zones.getElem?_ids hdestination
  obtain ⟨⟨hr, hc⟩, ⟨hr', hc'⟩, -, -⟩ := h
  constructor
  · exact Matrix.get?_eq_cell (hr ▸ hids) (hc ▸ hids) (hr ▸ horigin) (hc ▸ hdestination)
  · exact Matrix.get?_eq_cell (hr' ▸ hids) (hc' ▸ hids) (hr' ▸ horigin) (hc' ▸ hdestination)

omit [Scalar β] in
/-- Matrices over the same ids with the same cells are the same. -/
theorem RoadMatrices.Over.ext {ids : Array ι} {m other : RoadMatrices ι β} (h : m.Over ids)
    (h' : other.Over ids) (hcell : ∀ row < ids.size, ∀ col < ids.size,
      m.travelTime.cell row col = other.travelTime.cell row col ∧
        m.distance.cell row col = other.distance.cell row col) : m = other := by
  obtain ⟨⟨hr, hc⟩, ⟨gr, gc⟩, hwf, gwf⟩ := h
  obtain ⟨⟨hr', hc'⟩, ⟨gr', gc'⟩, hwf', gwf'⟩ := h'
  have htime : m.travelTime = other.travelTime := by
    refine hwf.ext hwf' (hr.trans hr'.symm) (hc.trans hc'.symm) fun row hrow col hcol => ?_
    rw [Matrix.rows, hr] at hrow
    rw [Matrix.cols, hc] at hcol
    exact (hcell row hrow col hcol).1
  have hdistance : m.distance = other.distance := by
    refine gwf.ext gwf' (gr.trans gr'.symm) (gc.trans gc'.symm) fun row hrow col hcol => ?_
    rw [Matrix.rows, gr] at hrow
    rw [Matrix.cols, gc] at hcol
    exact (hcell row hrow col hcol).2
  cases m
  cases other
  congr

/-! ## Rows -/

variable [Scalar α] [Narrowing α β]

theorem length_roadCell {limited : Bool} {pairs : List (α × α)} {values : List β}
    (h : roadCell limited pairs = some values) : values.length = 2 := by
  unfold roadCell at h
  split at h
  · split at h <;> cases h
    rfl
  · cases h
    rfl

variable {zones : Zones α} {snapped : Array (List NodeId)} {search : RoadSearch α}
  {config : Configuration α} {pool : Pool}

theorem fits_roadRow (zones : Zones α) (snapped : Array (List NodeId)) (search : RoadSearch α)
    (config : Configuration α) (departure : α) :
    Fits (roadRow (β := β) zones snapped search config departure) zones.size zones.size 2 := by
  intro row _ cells hcells
  have hok : Ok (roadRow (β := β) zones snapped search config departure row) fun cells =>
      cells.length = zones.size ∧
        ∀ cell ∈ cells, ∀ values, cell = some values → values.length = 2 := by
    refine Ok.bind (Ok.trivial _) fun zone _ => Ok.bind (Ok.trivial _) fun nodes _ =>
      Ok.bind (Ok.trivial _) fun trees _ => ?_
    refine (Ok.mapM fun col _ => ?_).mono fun cells h => ⟨by simpa using h.1, h.2⟩
    refine Ok.bind (Ok.trivial _) fun near _ => Ok.bind (Ok.trivial _) fun others _ => ?_
    refine Ok.pure fun values hvalues => ?_
    split at hvalues
    · exact length_roadCell hvalues
    · cases hvalues
  obtain ⟨hlength, hvalues⟩ := hok cells hcells
  exact ⟨hlength.le, fun values h => hvalues _ h values rfl⟩

/-! ## Slices -/

/-- The matrices of the trees for one departure. -/
def sliceWith (zones : Zones α) (snapped : Array (List NodeId)) (search : RoadSearch α)
    (config : Configuration α) (departure : α) : RoadMatrices ZoneId β :=
  let cells := cellsOf (roadRow zones snapped search config departure)
  RoadMatrices.ofCells zones.ids (fun row col => valueAt (cells row) 0 col)
    fun row col => valueAt (cells row) 1 col

theorem over_sliceWith (departure : α) :
    (sliceWith (β := β) zones snapped search config departure).Over zones.ids :=
  RoadMatrices.over_ofCells ..

variable (snapped search config) in
theorem roadSlice_performs (hids : zones.ids.toList.Nodup) (hpool : pool.Complete)
    (departure : α) :
    Run.Performs (storable (roadRow (β := β) zones snapped search config departure))
      (List.range zones.size) (roadSlice (β := β) zones snapped search config pool departure)
      (sliceWith zones snapped search config departure) := by
  have hsize : zones.ids.size = zones.size := Array.size_map
  have hfill := fillRows_blank_performs zones.ids hpool (by decide)
    (hsize.symm ▸ fits_roadRow (β := β) zones snapped search config departure)
  rw [hsize] at hfill
  refine Run.Performs.notify _ ?_
  rw [Run.orFault_ok (RoadMatrices.new_eq hids), pure_bind]
  exact (Run.Performs.ofOutcome hfill).map _

/-- The sum of the matrices of several departures. -/
def sumWith (zones : Zones α) (snapped : Array (List NodeId)) (search : RoadSearch α)
    (config : Configuration α) (total : RoadMatrices ZoneId β) (departures : List α) :
    RoadMatrices ZoneId β :=
  departures.foldl (fun total departure =>
    total.increasedBy (sliceWith zones snapped search config departure)) total

variable (snapped search config) in
theorem addSlices_performs (hids : zones.ids.toList.Nodup) (hpool : pool.Complete)
    (departures : List α) {total : RoadMatrices ZoneId β} (htotal : total.Over zones.ids) :
    Run.Performs (fun row => departures.mapM fun departure =>
        storable (roadRow (β := β) zones snapped search config departure) row)
      (List.range zones.size) (addSlices zones snapped search config pool total departures)
      (sumWith zones snapped search config total departures) := by
  induction departures generalizing total with
  | nil => exact Run.Performs.pure _ _ fun _ _ => ⟨[], rfl⟩
  | cons departure departures ih =>
    simp only [List.mapM_cons]
    refine (roadSlice_performs snapped search config hids hpool departure).andThen ?_ List.cons
    rw [Run.orFault_ok (RoadMatrices.combine_eq hids htotal (over_sliceWith departure)),
      pure_bind]
    exact ih htotal.increasedBy

/-! ## Cells -/

section Cells

variable (snapped search config) {row col : Nat}

theorem cells_sliceWith (departure : α) (hr : row < zones.size) (hc : col < zones.size) :
    (sliceWith zones snapped search config departure).travelTime.cell row col = valueAt
        (cellsOf (roadRow (β := β) zones snapped search config departure) row) 0 col ∧
      (sliceWith zones snapped search config departure).distance.cell row col = valueAt
        (cellsOf (roadRow (β := β) zones snapped search config departure) row) 1 col := by
  have hsize : (Matrix.blank (β := β) zones.ids).rows = zones.size := Array.size_map
  have hsize' : (Matrix.blank (β := β) zones.ids).cols = zones.size := Array.size_map
  exact ⟨Matrix.cell_withCells (hsize ▸ hr) (hsize' ▸ hc),
    Matrix.cell_withCells (hsize ▸ hr) (hsize' ▸ hc)⟩

/-- A cell of a sum is increased by the cell of one departure after the other. -/
theorem cells_sumWith (hr : row < zones.size) (hc : col < zones.size) (departures : List α)
    {total : RoadMatrices ZoneId β} (htotal : total.Over zones.ids) :
    (sumWith zones snapped search config total departures).travelTime.cell row col =
        departures.foldl (fun cell departure => increasedBy cell
          ((sliceWith zones snapped search config departure).travelTime.cell row col))
          (total.travelTime.cell row col) ∧
      (sumWith zones snapped search config total departures).distance.cell row col =
        departures.foldl (fun cell departure => increasedBy cell
          ((sliceWith zones snapped search config departure).distance.cell row col))
          (total.distance.cell row col) := by
  induction departures generalizing total with
  | nil => exact ⟨rfl, rfl⟩
  | cons departure departures ih =>
    have hsize : zones.ids.size = zones.size := Array.size_map
    have hnext : (total.increasedBy (sliceWith zones snapped search config departure)).Over
        zones.ids := htotal.increasedBy
    obtain ⟨htime, hdistance⟩ := ih hnext
    rw [sumWith, List.foldl_cons, ← sumWith, htime, hdistance, List.foldl_cons, List.foldl_cons,
      RoadMatrices.increasedBy, Matrix.cell_withCells, Matrix.cell_withCells]
    · exact ⟨rfl, rfl⟩
    all_goals simpa only [Matrix.rows, Matrix.cols, htotal.distance_ids, htotal.travelTime_ids,
      hsize]

end Cells

/-! ## Averages -/

/-- The departures whose matrices are calculated: when the link functions never depend on the time,
the first one stands for all. -/
def slices (search : RoadSearch α) (config : Configuration α) : List α :=
  if search.travelTime.timeInvariant && search.cost.timeInvariant then config.departures.take 1
  else config.departures

omit [Scalar β] [Narrowing α β] [Scalar α] in
theorem slices_ne_nil (search : RoadSearch α) (h : config.departures ≠ []) :
    slices search config ≠ [] := by
  rw [slices]
  split
  · simpa using h
  · exact h

omit [Scalar β] [Narrowing α β] [Scalar α] in
theorem mem_of_mem_slices {departure : α} (h : departure ∈ slices search config) :
    departure ∈ config.departures := by
  rw [slices] at h
  split at h
  · exact List.mem_of_mem_take h
  · exact h

/-- The averages over all departures. -/
def averagesWith (zones : Zones α) (snapped : Array (List NodeId)) (search : RoadSearch α)
    (config : Configuration α) : RoadMatrices ZoneId β :=
  if search.travelTime.timeInvariant && search.cost.timeInvariant then
    sliceWith zones snapped search config (config.departures.headD 0)
  else
    (sumWith zones snapped search config (RoadMatrices.blank zones.ids) config.departures).scale
      (Scalar.ofNat 1 / Scalar.ofNat config.departures.length)

/-- The work of a row of road matrices: the nodes of all zones are found, and then the row is filled
for one departure after the other. -/
def roadWork (zones : Zones α) (search : RoadSearch α) (config : Configuration α) (row : Nat) :
    Outcome (RunError α) (List (RowCells β)) := do
  let snapped ← nodesOfZones zones search.network
  (slices search config).mapM fun departure =>
    storable (roadRow zones snapped search config departure) row

variable (config) in
theorem roadMatrices_performs (hids : zones.ids.toList.Nodup) (hsize : 0 < zones.size)
    (hpool : pool.Complete) (hdepartures : config.departures ≠ [])
    {value : RoadMatrices ZoneId β}
    (hvalue : ∀ snapped, nodesOfZones zones search.network = .ok snapped →
      value = averagesWith zones snapped search config) :
    Run.Performs (roadWork (β := β) zones search config) (List.range zones.size)
      (roadMatrices zones search config pool) value := by
  obtain ⟨first, rest, hdep⟩ := List.exists_cons_of_ne_nil hdepartures
  have hne : List.range zones.size ≠ [] := by simpa using Nat.ne_of_gt hsize
  rw [roadMatrices, hdep]
  refine Run.Performs.prepared hne fun snapped hsnapped => ?_
  rw [hvalue snapped (lift_eq_ok.mp hsnapped)]
  refine Run.Performs.notifyIf _ _ ?_
  by_cases hinv : (search.travelTime.timeInvariant && search.cost.timeInvariant) = true
  · rw [averagesWith, slices, if_pos hinv, if_pos hinv, if_pos hinv, hdep]
    refine Run.Performs.notifyIf _ _ ?_
    exact (roadSlice_performs snapped search config hids hpool first).map_work fun cells => [cells]
  · rw [averagesWith, slices, if_neg hinv, if_neg hinv, if_neg hinv,
      Run.orFault_ok (RoadMatrices.new_eq hids), pure_bind, hdep]
    have hsum := addSlices_performs (β := β) snapped search config hids hpool (first :: rest)
      (RoadMatrices.over_blank zones.ids)
    exact hsum.map fun total => total.scale _

theorem over_sumWith (departures : List α) {total : RoadMatrices ZoneId β}
    (htotal : total.Over zones.ids) :
    (sumWith zones snapped search config total departures).Over zones.ids := by
  induction departures generalizing total with
  | nil => exact htotal
  | cons departure departures ih => exact ih htotal.increasedBy

/-- The average of a cell over departures. -/
def averageCell (cells : List (Option β)) : Option β :=
  (cells.foldl increasedBy none).map (scaled (Scalar.ofNat 1 / Scalar.ofNat cells.length))

omit [Narrowing α β] [Scalar α] in
/-- A single departure is its own average. -/
theorem averageCell_singleton [LawfulUnit β] {cell : Option β}
    (h : ∀ v, cell = some v → Scalar.IsNumber v) : averageCell [cell] = cell := by
  cases cell with
  | none => rfl
  | some v =>
    have hv : Scalar.isNaN v = false := h v rfl
    have hunit : v * (Scalar.ofNat 1 / Scalar.ofNat 1) = v := LawfulUnit.mul_unit (h v rfl)
    simp [averageCell, increasedBy, increase, cellOf, scaled, hv, hunit]

variable (snapped search) in
theorem cells_averagesWith [LawfulUnit β] {row col : Nat} (hr : row < zones.size)
    (hc : col < zones.size) (hdepartures : config.departures ≠ []) :
    (averagesWith zones snapped search config).travelTime.cell row col = averageCell (β := β)
        ((slices search config).map fun departure =>
          (sliceWith zones snapped search config departure).travelTime.cell row col) ∧
      (averagesWith zones snapped search config).distance.cell row col = averageCell (β := β)
        ((slices search config).map fun departure =>
          (sliceWith zones snapped search config departure).distance.cell row col) := by
  rw [averagesWith, slices]
  split
  · obtain ⟨first, rest, hfirst⟩ := List.exists_cons_of_ne_nil hdepartures
    obtain ⟨htime, hdistance⟩ := cells_sliceWith (β := β) snapped search config first hr hc
    rw [hfirst]
    exact ⟨(averageCell_singleton fun v hv => isNumber_of_valueAt (htime ▸ hv)).symm,
      (averageCell_singleton fun v hv => isNumber_of_valueAt (hdistance ▸ hv)).symm⟩
  · obtain ⟨htime, hdistance⟩ := cells_sumWith (β := β) snapped search config hr hc
      config.departures (RoadMatrices.over_blank zones.ids)
    rw [RoadMatrices.scale, Matrix.cell_scale, Matrix.cell_scale, htime, hdistance, averageCell,
      averageCell, List.foldl_map, List.foldl_map, List.length_map, List.length_map,
      RoadMatrices.blank, Matrix.cell_blank]
    exact ⟨rfl, rfl⟩

theorem over_averagesWith :
    (averagesWith (β := β) zones snapped search config).Over zones.ids := by
  rw [averagesWith]
  split
  · exact over_sliceWith _
  · exact (over_sumWith _ (RoadMatrices.over_blank zones.ids)).scale _

/-- The matrices of a run that succeeds are the averages, and every row of every slice was
filled. -/
theorem averages_of_run (hids : zones.ids.toList.Nodup) (hsize : 0 < zones.size)
    (hpool : pool.Complete) (hdepartures : config.departures ≠ []) {log : List (Notice α)}
    {matrices : RoadMatrices ZoneId β}
    (h : (roadMatrices zones search config pool).result log = .ok matrices) :
    ∃ snapped, nodesOfZones zones search.network = .ok snapped ∧
      matrices = averagesWith zones snapped search config ∧
      ∀ row < zones.size, ∀ departure ∈ slices search config, ∃ cells,
        storable (roadRow (β := β) zones snapped search config departure) row = .ok cells := by
  obtain ⟨value, hvalue⟩ : ∃ value : RoadMatrices ZoneId β, ∀ snapped,
      nodesOfZones zones search.network = .ok snapped →
        value = averagesWith zones snapped search config := by
    cases nodesOfZones zones search.network with
    | error b => exact ⟨RoadMatrices.blank zones.ids, nofun⟩
    | ok snapped => exact ⟨_, fun _ hsnapped => by cases hsnapped; rfl⟩
  rcases (roadMatrices_performs config hids hsize hpool hdepartures hvalue log).cases with
    ⟨hwork, hok⟩ | ⟨-, -, e, -, herror⟩
  · obtain ⟨rows, hrows⟩ := hwork 0 (List.mem_range.mpr hsize)
    obtain ⟨snapped, hsnapped, -⟩ := bind_eq_ok.mp hrows
    rw [lift_eq_ok] at hsnapped
    have hsame : matrices = value := Except.ok.inj (h.symm.trans hok)
    refine ⟨snapped, hsnapped, hsame.trans (hvalue snapped hsnapped),
      fun row hrow departure hdep => ?_⟩
    obtain ⟨rows, hrows⟩ := hwork row (List.mem_range.mpr hrow)
    rw [roadWork, hsnapped] at hrows
    have hall := mapM_eq_ok_iff.mp (show (slices search config).mapM (fun departure =>
      storable (roadRow (β := β) zones snapped search config departure) row) = .ok rows from hrows)
    obtain ⟨i, hi, rfl⟩ := List.getElem_of_mem hdep
    exact ⟨_, hall.get hi (hall.length_eq ▸ hi)⟩
  · rw [h] at herror
    cases herror

end ZoneSkims
