import Mathlib.Data.List.Nodup
import ZoneSkims.Proofs.Matrix.Block
import ZoneSkims.Proofs.Work
import ZoneSkims.Skim.Assembly

/-!
# Filled matrices do not depend on the pool

The work of a row touches no cell outside it. Whatever the number of workers and the order of their
turns, the matrices that are filled have the values of every row in that row, and nothing else has
changed.

* `storable`: the work of a row and the check that its values can be stored.
* `filledWith`: the matrices with the values of all rows.
* `fillRows_performs`: the rows are filled with the values of their work.
-/

namespace ZoneSkims

variable {ι β ε : Type}

/-! ## Rows -/

/-- The value in the cells of a row for a matrix and a column, if there is one. -/
def valueAt (cells : RowCells β) (k col : Nat) : Option β :=
  cells[col]?.join.bind fun values => values[k]?

@[simp] theorem valueAt_nil (k col : Nat) : valueAt ([] : RowCells β) k col = none := by
  simp [valueAt]

@[simp] theorem valueAt_cons_zero (cell : Option (List β)) (cells : RowCells β) (k : Nat) :
    valueAt (cell :: cells) k 0 = cell.bind fun values => values[k]? := by
  simp [valueAt]

@[simp] theorem valueAt_cons_succ (cell : Option (List β)) (cells : RowCells β) (k col : Nat) :
    valueAt (cell :: cells) k (col + 1) = valueAt cells k col := by
  simp [valueAt]

/-- The cells of a matrix after the values of some rows were stored. -/
def withRows (rows : List Nat) (cells : Nat → RowCells β) (k : Nat) (f : Nat → Nat → Option β) :
    Nat → Nat → Option β :=
  fun r c => if r ∈ rows then (valueAt (cells r) k c).or (f r c) else f r c

/-- The cells of a matrix after values were stored in a row from a column on. -/
def withRowFrom (row col : Nat) (cells : RowCells β) (k : Nat) (f : Nat → Nat → Option β) :
    Nat → Nat → Option β :=
  fun r c => if r = row ∧ col ≤ c then (valueAt cells k (c - col)).or (f r c) else f r c

theorem withRowFrom_nil (row col k : Nat) (f : Nat → Nat → Option β) :
    withRowFrom row col [] k f = f := by
  funext r c
  simp [withRowFrom]

/-- The first cell is stored in its column, if it has a value, and then the others. -/
theorem withRowFrom_cons (row col k : Nat) (cell : Option (List β)) (cells : RowCells β)
    (f : Nat → Nat → Option β) :
    withRowFrom row col (cell :: cells) k f = withRowFrom row (col + 1) cells k
      (withCell f row col ((cell.bind fun values => values[k]?).or (f row col))) := by
  funext r c
  by_cases hr : r = row
  · subst hr
    rcases Nat.lt_trichotomy c col with hc | rfl | hc
    · simp [withRowFrom, withCell, Nat.not_le.mpr hc, Nat.ne_of_lt hc, show ¬ col + 1 ≤ c by omega]
    · simp [withRowFrom, withCell]
    · obtain ⟨n, rfl⟩ := Nat.exists_eq_add_of_lt hc
      have hsub : col + n + 1 - col = n + 1 := by omega
      have hsub' : col + n + 1 - (col + 1) = n := by omega
      simp only [withRowFrom, withCell, hsub, hsub', valueAt_cons_succ]
      simp [show col ≤ col + n + 1 by omega, show col + 1 ≤ col + n + 1 by omega,
        show col + n + 1 ≠ col by omega]
  · simp [withRowFrom, withCell, hr]

variable [Scalar β]

/-- A matrix can hold all values of a row. -/
def definedCells (cells : RowCells β) : Bool :=
  cells.all fun cell => cell.all fun values => values.all fun value => !Scalar.isNaN value

/-- The work of a row, with the check that its values can be stored. -/
def storable (work : Nat → Outcome ε (RowCells β)) (row : Nat) : Outcome ε (RowCells β) := do
  let cells ← work row
  if definedCells cells then return cells else .error (.breach .undefinedCell)

theorem storable_of_error {work : Nat → Outcome ε (RowCells β)} {row : Nat} {e : Failure ε}
    (h : work row = .error e) : storable work row = .error e := by
  rw [storable, h]
  rfl

theorem storable_of_ok {work : Nat → Outcome ε (RowCells β)} {row : Nat} {cells : RowCells β}
    (h : work row = .ok cells) : storable work row =
      if definedCells cells then .ok cells else .error (.breach .undefinedCell) := by
  rw [storable, h]
  rfl

/-- The cells of a row whose work succeeds. -/
def cellsOf (work : Nat → Outcome ε (RowCells β)) (row : Nat) : RowCells β :=
  match storable work row with
  | .ok cells => cells
  | .error _ => []

theorem cellsOf_eq {work : Nat → Outcome ε (RowCells β)} {row : Nat} {cells : RowCells β}
    (h : storable work row = .ok cells) : cellsOf work row = cells := by
  rw [cellsOf, h]

theorem storable_eq_ok {work : Nat → Outcome ε (RowCells β)} {row : Nat} {cells : RowCells β}
    (h : storable work row = .ok cells) : work row = .ok cells ∧ definedCells cells = true := by
  obtain ⟨filled, hfilled, h⟩ := bind_eq_ok.mp h
  split at h
  case isTrue hdefined =>
    cases h
    exact ⟨hfilled, hdefined⟩
  case isFalse => cases h

/-- What is stored is defined. -/
theorem isNumber_of_valueAt {work : Nat → Outcome ε (RowCells β)} {row k col : Nat} {value : β}
    (h : valueAt (cellsOf work row) k col = some value) : Scalar.IsNumber value := by
  cases hcells : storable work row with
  | error e =>
    rw [cellsOf, hcells, valueAt_nil] at h
    cases h
  | ok cells =>
    obtain ⟨-, hdefined⟩ := storable_eq_ok hcells
    rw [cellsOf_eq hcells] at h
    obtain ⟨values, hvalues, hvalue⟩ := Option.bind_eq_some_iff.mp h
    obtain ⟨i, hi, hcell⟩ : ∃ i, ∃ hi : i < cells.length, cells[i] = some values :=
      ⟨col, List.getElem?_eq_some_iff.mp (Option.join_eq_some_iff.mp hvalues)⟩
    have hall := List.all_eq_true.mp hdefined _ (List.getElem_mem hi)
    rw [hcell] at hall
    simpa [Scalar.IsNumber] using List.all_eq_true.mp hall value (List.mem_of_getElem? hvalue)

/-- The work of a row gives cells for the columns at hand and a value for every matrix. -/
def Fits (work : Nat → Outcome ε (RowCells β)) (rows cols depth : Nat) : Prop :=
  ∀ row < rows, ∀ cells, work row = .ok cells →
    cells.length ≤ cols ∧ ∀ values, some values ∈ cells → values.length = depth

/-! ## Blocks -/

namespace Share

open RowBlock

/-- The blocks of a range in matrices with the cells of functions. -/
def blocksOf (cols depth : Nat) (f : Nat → Nat → Nat → Option β) (range : RowRange) :
    List (RowBlock β) :=
  (List.range depth).map fun k => ofCells cols (f k) range

theorem setAll_blocksOf {cols depth row col : Nat} {f : Nat → Nat → Nat → Option β}
    {range : RowRange} {values : List β} (hr : row ∈ range) (hc : col < cols)
    (hvalues : values.length = depth) :
    setAll row col (blocksOf cols depth f range) values =
      if values.all fun value => !Scalar.isNaN value then
        .ok (blocksOf cols depth (fun k => withCell (f k) row col values[k]?) range)
      else .error .undefinedCell := by
  obtain ⟨v, rfl⟩ : ∃ v : Nat → β, values = (List.range depth).map v := by
    refine ⟨fun k => values[k]?.getD 0, List.ext_getElem? fun k => ?_⟩
    by_cases hk : k < depth
    · simp [hk, hvalues]
    · simp [hk, hvalues]
  rw [setAll, blocksOf, List.zip_map', List.mapM_map, List.all_map]
  refine mapM_eq_ite fun k hk => ?_
  have hk' : ((List.range depth).map v)[k]? = some (v k) := by
    rw [List.getElem?_map, List.getElem?_range (List.mem_range.mp hk)]
    rfl
  change (ofCells cols (f k) range).set row col (v k) = if (!Scalar.isNaN (v k)) = true then
    .ok (ofCells cols (withCell (f k) row col ((List.range depth).map v)[k]?) range) else _
  by_cases hvalue : Scalar.IsNumber (v k)
  · rw [hk', set_ofCells hvalue hr hc, show Scalar.isNaN (v k) = false from hvalue]
    rfl
  · have hnan : Scalar.isNaN (v k) = true := by simpa [Scalar.IsNumber] using hvalue
    rw [set_of_isNaN hvalue, hnan]
    rfl

omit [Scalar β] in
theorem blocksOf_congr {cols depth : Nat} {f g : Nat → Nat → Nat → Option β} {range : RowRange}
    (h : ∀ k < depth, f k = g k) : blocksOf cols depth f range = blocksOf cols depth g range :=
  List.map_congr_left fun k hk => by rw [h k (List.mem_range.mp hk)]

omit [Scalar β] in
theorem blocksOf_congr_range {cols depth : Nat} {f g : Nat → Nat → Nat → Option β}
    {range : RowRange} (h : ∀ k, ∀ row ∈ range, ∀ col, f k row col = g k row col) :
    blocksOf cols depth f range = blocksOf cols depth g range :=
  List.map_congr_left fun k _ => ofCells_congr fun row hr col _ => h k row hr col

/-- The cells of a row are stored in order, from a column on. -/
theorem foldlM_blocksOf {cols depth row : Nat} {range : RowRange} (hr : row ∈ range)
    (cells : RowCells β) (col : Nat) (f : Nat → Nat → Nat → Option β)
    (hcols : col + cells.length ≤ cols)
    (hdepth : ∀ values, some values ∈ cells → values.length = depth) :
    (cells.zipIdx col).foldlM (fun blocks (cell, col) =>
        match cell with
        | none => Except.ok blocks
        | some values => setAll row col blocks values) (blocksOf cols depth f range) =
      if definedCells cells then
        .ok (blocksOf cols depth (fun k => withRowFrom row col cells k (f k)) range)
      else .error .undefinedCell := by
  induction cells generalizing col f with
  | nil =>
    simp only [withRowFrom_nil]
    rfl
  | cons cell cells ih =>
    rw [List.length_cons] at hcols
    rw [List.zipIdx_cons, List.foldlM_cons, definedCells, List.all_cons, ← definedCells]
    have ih' := fun f => ih (col + 1) f (by omega) fun values hv =>
      hdepth values (List.mem_cons_of_mem _ hv)
    cases cell with
    | none =>
      simp only [withRowFrom_cons, Option.bind_none, Option.none_or, withCell_self]
      exact ih' f
    | some values =>
      have hvalues : values.length = depth := hdepth values List.mem_cons_self
      have hf : blocksOf cols depth (fun k => withCell (f k) row col values[k]?) range =
          blocksOf cols depth
            (fun k => withCell (f k) row col (values[k]?.or (f k row col))) range :=
        blocksOf_congr fun k hk => by rw [List.getElem?_eq_getElem (by omega), Option.some_or]
      simp only [setAll_blocksOf hr (show col < cols by omega) hvalues, hf, withRowFrom_cons,
        Option.bind_some]
      cases hdefined : values.all fun value => !Scalar.isNaN value with
      | false => simp [hdefined]; rfl
      | true =>
        simp only [Option.all_some, hdefined, Bool.true_and, if_true]
        exact ih' _

theorem storeRow_blocksOf {cols depth row : Nat} {range : RowRange} {cells : RowCells β}
    {f : Nat → Nat → Nat → Option β} (hr : row ∈ range) (hcols : cells.length ≤ cols)
    (hdepth : ∀ values, some values ∈ cells → values.length = depth) :
    storeRow (blocksOf cols depth f range) row cells =
      if definedCells cells then
        .ok (blocksOf cols depth (fun k => withRows [row] (fun _ => cells) k (f k)) range)
      else .error .undefinedCell := by
  have hrow : (fun k => withRowFrom row 0 cells k (f k)) =
      fun k => withRows [row] (fun _ => cells) k (f k) := by
    funext k r c
    simp [withRowFrom, withRows]
  rw [storeRow, ← hrow]
  exact foldlM_blocksOf hr cells 0 f (by omega) hdepth

/-! ## Shares -/

/-- The share of a range of rows in matrices with the cells of functions. -/
def ofCells (cols depth : Nat) (f : Nat → Nat → Nat → Option β) (range : RowRange) : Share β :=
  { rows := range, blocks := blocksOf cols depth f range }

variable {work : Nat → Outcome ε (RowCells β)}

omit [Scalar β] in
/-- The values of one more row are stored. -/
theorem withRows_append (done : List Nat) (row k : Nat) (cells : Nat → RowCells β)
    (f : Nat → Nat → Option β) :
    withRows [row] (fun _ => cells row) k (withRows done cells k f) =
      withRows (done ++ [row]) cells k f := by
  funext r c
  by_cases hr : r = row
  · subst hr
    cases h : valueAt (cells r) k c <;> simp [withRows, h]
  · simp [withRows, hr]

/-- The cells of a row are those of its work, if they can be stored. -/
theorem storeWork_performs {rows cols depth row : Nat} {range : RowRange} (hr : row ∈ range)
    (hrows : row < rows) (hwork : Fits work rows cols depth) (f : Nat → Nat → Nat → Option β) :
    Performs (storable work) [row]
      (do let cells ← work row; storeRow (blocksOf cols depth f range) row cells)
      (blocksOf cols depth (fun k => withRows [row] (fun _ => cellsOf work row) k (f k))
        range) := by
  cases hcells : work row with
  | error e =>
    have hfail := storable_of_error hcells
    refine Performs.single (fun d hd => ?_) fun e' he' => ?_
    · rw [hfail] at hd
      cases hd
    · rw [hfail] at he'
      cases he'
      rfl
  | ok cells =>
    obtain ⟨hcols, hdepth⟩ := hwork row hrows cells hcells
    have hstore := storeRow_blocksOf (f := f) hr hcols hdepth
    cases hdefined : definedCells cells with
    | true =>
      have hok : storable work row = .ok cells := by
        rw [storable_of_ok hcells, hdefined, if_pos rfl]
      rw [hdefined, if_pos rfl] at hstore
      refine Performs.single (fun d hd => ?_) fun e' he' => ?_
      · rw [cellsOf, hok]
        exact congrArg (Except.mapError Failure.breach) hstore
      · rw [hok] at he'
        cases he'
    | false =>
      have hfail : storable work row = .error (.breach .undefinedCell) := by
        rw [storable_of_ok hcells, hdefined, if_neg (by decide)]
      rw [hdefined, if_neg (by decide)] at hstore
      refine Performs.single (fun d hd => ?_) fun e' he' => ?_
      · rw [hfail] at hd
        cases hd
      · rw [hfail] at he'
        cases he'
        exact congrArg (Except.mapError Failure.breach) hstore

/-- A share that is filled has the values of its rows. -/
theorem fill_performs {rows cols depth : Nat} {range : RowRange} (hrange : range.stop ≤ rows)
    (hwork : Fits work rows cols depth) (f : Nat → Nat → Nat → Option β) :
    Performs (storable work) range.rows ((ofCells cols depth f range).fill work)
      (ofCells cols depth (fun k => withRows range.rows (cellsOf work) k (f k)) range) := by
  have hfold : Performs (storable work) (range.rows.flatMap fun row => [row])
      (range.rows.foldlM (fun blocks row => do
        let cells ← work row
        storeRow blocks row cells)
        (blocksOf cols depth (fun k => withRows [] (cellsOf work) k (f k)) range))
      (blocksOf cols depth (fun k => withRows range.rows (cellsOf work) k (f k)) range) := by
    refine Performs.foldlM (fun row => [row])
      (fun done => blocksOf cols depth (fun k => withRows done (cellsOf work) k (f k)) range)
      fun done row rest hsteps => ?_
    have hr : row ∈ range := RowRange.mem_rows.mp (by rw [hsteps]; simp)
    have hstep := storeWork_performs hr (Nat.lt_of_lt_of_le hr.2 hrange) hwork
      fun k => withRows done (cellsOf work) k (f k)
    simpa only [withRows_append] using hstep
  have hnone : (fun k => withRows [] (cellsOf work) k (f k)) = f := by
    funext k r c
    simp [withRows]
  rw [hnone, List.flatMap_singleton'] at hfold
  exact hfold.map fun blocks => Share.mk range blocks

end Share

/-! ## Turns -/

section Turns

open Share

variable {work : Nat → Outcome ε (RowCells β)} {ranges : List RowRange} {turns : List Nat}

/-- The shares of ranges when the workers of some turns are done. -/
def sharesAfter (work : Nat → Outcome ε (RowCells β)) (cols depth : Nat)
    (f : Nat → Nat → Nat → Option β) (ranges : List RowRange) (done : List Nat) :
    Array (Share β) :=
  (ranges.mapIdx fun i range => ofCells cols depth
    (if i ∈ done then fun k => withRows range.rows (cellsOf work) k (f k) else f) range).toArray

theorem sharesAfter_nil (cols depth : Nat) (f : Nat → Nat → Nat → Option β) :
    sharesAfter work cols depth f ranges [] = (ranges.map (ofCells cols depth f)).toArray := by
  refine congrArg List.toArray (List.ext_getElem? fun i => ?_)
  simp only [List.getElem?_mapIdx, List.getElem?_map, List.not_mem_nil, if_false]

/-- When all workers are done, every row of the shares has the values of its work. -/
theorem sharesAfter_all {rows cols depth : Nat} (hranges : ∀ range ∈ ranges, range.stop ≤ rows)
    (hturns : ∀ i < ranges.length, i ∈ turns) (f : Nat → Nat → Nat → Option β) :
    sharesAfter work cols depth f ranges turns = (ranges.map (ofCells cols depth
      fun k => withRows (List.range rows) (cellsOf work) k (f k))).toArray := by
  refine congrArg List.toArray (List.ext_getElem (by simp) fun i hi hi' => ?_)
  rw [List.length_mapIdx] at hi
  rw [List.getElem_mapIdx, List.getElem_map, if_pos (hturns i hi), ofCells, ofCells]
  refine congrArg (Share.mk _) (blocksOf_congr_range fun k row hr col => ?_)
  have hrow : row < rows := Nat.lt_of_lt_of_le hr.2 (hranges _ (List.getElem_mem hi))
  simp [withRows, hr, hrow]

/-- The shares do not depend on the order of the turns. -/
theorem fillShares_performs {rows cols depth : Nat} (hranges : ∀ range ∈ ranges, range.stop ≤ rows)
    (hwork : Fits work rows cols depth) (hturns : turns.Perm (List.range ranges.length))
    (f : Nat → Nat → Nat → Option β) :
    Performs (storable work) (ranges.flatMap RowRange.rows)
      (fillShares turns work (sharesAfter work cols depth f ranges []))
      (sharesAfter work cols depth f ranges turns) := by
  have hmem : ∀ i, i ∈ turns ↔ i < ranges.length := fun i => by rw [hturns.mem_iff, List.mem_range]
  have hfold : Performs (storable work)
      (turns.flatMap fun i => (ranges[i]?.map RowRange.rows).getD [])
      (fillShares turns work (sharesAfter work cols depth f ranges []))
      (sharesAfter work cols depth f ranges turns) := by
    refine Performs.foldlM _ (sharesAfter work cols depth f ranges) fun done i rest hsteps => ?_
    have hi : i < ranges.length := (hmem i).mp (by rw [hsteps]; simp)
    have hnot : i ∉ done := by
      have hnodup : (done ++ i :: rest).Nodup := hsteps ▸ hturns.nodup_iff.mpr List.nodup_range
      exact fun h => (List.nodup_append.mp hnodup).2.2 i h i List.mem_cons_self rfl
    have hshare : (sharesAfter work cols depth f ranges done)[i]? =
        some (ofCells cols depth f ranges[i]) := by
      simp [sharesAfter, hi, hnot]
    have hfilled : (sharesAfter work cols depth f ranges done).setIfInBounds i
        (ofCells cols depth (fun k => withRows ranges[i].rows (cellsOf work) k (f k)) ranges[i]) =
          sharesAfter work cols depth f ranges (done ++ [i]) := by
      apply Array.ext_getElem?
      intro j
      by_cases hj : i = j
      · subst hj
        rw [Array.getElem?_setIfInBounds_self_of_lt (by simpa [sharesAfter] using hi)]
        simp [sharesAfter, hi]
      · rw [Array.getElem?_setIfInBounds_ne hj]
        simp [sharesAfter, Ne.symm hj]
    rw [hshare, ← hfilled, List.getElem?_eq_getElem hi]
    exact (fill_performs (hranges _ (List.getElem_mem hi)) hwork f).map
      fun filled => (sharesAfter work cols depth f ranges done).setIfInBounds i filled
  refine hfold.of_mem_iff fun row => ?_
  simp only [List.mem_flatMap, hmem]
  constructor
  · rintro ⟨i, hi, hrow⟩
    rw [List.getElem?_eq_getElem hi] at hrow
    exact ⟨ranges[i], List.getElem_mem hi, hrow⟩
  · rintro ⟨range, hrange, hrow⟩
    obtain ⟨i, hi, rfl⟩ := List.getElem_of_mem hrange
    exact ⟨i, hi, by rwa [List.getElem?_eq_getElem hi]⟩

end Turns

/-! ## Matrices -/

section Matrices

open Share

/-- Matrices of the same height and width with all their cells. -/
def Aligned (matrices : List (Matrix ι β)) (rows cols : Nat) : Prop :=
  ∀ m ∈ matrices, m.WellFormed ∧ m.rows = rows ∧ m.cols = cols

/-- The cells of the matrix at a position. -/
def cellsIn (matrices : List (Matrix ι β)) (k : Nat) : Nat → Nat → Option β :=
  fun row col => matrices[k]?.bind fun m => m.cell row col

/-- The matrices with the values of all rows. Cells without a value are left as they are. -/
def filledWith (work : Nat → Outcome ε (RowCells β)) (matrices : List (Matrix ι β)) :
    List (Matrix ι β) :=
  matrices.mapIdx fun k m => m.withCells fun row col =>
    (valueAt (cellsOf work row) k col).or (m.cell row col)

variable {matrices : List (Matrix ι β)} {rows cols parts : Nat}

omit [Scalar β] in
theorem cutShares_rowShares (h : Aligned matrices rows cols) :
    cutShares matrices (rowShares rows parts) =
      .ok ((rowShares rows parts).map (ofCells cols matrices.length (cellsIn matrices))) := by
  have hcut : (matrices.mapM fun m => List.toArray <$> m.rowBlocks (rowShares rows parts)) =
      .ok (matrices.map fun m =>
        ((rowShares rows parts).map (RowBlock.ofCells cols m.cell)).toArray) := by
    refine mapM_eq_ok fun m hm => ?_
    obtain ⟨hwf, rfl, rfl⟩ := h m hm
    rw [Matrix.rowBlocks_rowShares hwf]
    rfl
  rw [cutShares, hcut]
  refine congrArg Except.ok (List.ext_getElem? fun i => ?_)
  rw [List.getElem?_map, List.getElem?_zipIdx, List.getElem?_map]
  cases hi : (rowShares rows parts)[i]? with
  | none => rfl
  | some range =>
    have hblocks : (matrices.map fun m =>
        ((rowShares rows parts).map (RowBlock.ofCells cols m.cell)).toArray).filterMap
          (fun blocks => blocks[0 + i]?) =
        blocksOf cols matrices.length (cellsIn matrices) range := by
      have hcell : ((fun blocks : Array (RowBlock β) => blocks[0 + i]?) ∘ fun m : Matrix ι β =>
          ((rowShares rows parts).map (RowBlock.ofCells cols m.cell)).toArray) =
            some ∘ fun m => RowBlock.ofCells cols m.cell range := by
        funext m
        simp [hi]
      rw [List.filterMap_map, hcell, ← List.filterMap_map, List.filterMap_some, blocksOf]
      refine List.ext_getElem (by simp) fun k hk hk' => ?_
      rw [List.length_map] at hk
      have hcells : cellsIn matrices k = matrices[k].cell := by
        funext row col
        simp [cellsIn, hk]
      simp [hcells]
    simp only [Option.map_some, hblocks]
    rfl

omit [Scalar β] in
theorem joinShares_rowShares (h : Aligned matrices rows cols) (f : Nat → Nat → Nat → Option β) :
    joinShares matrices ((rowShares rows parts).map (ofCells cols matrices.length f)) =
      matrices.mapIdx fun k m => m.withCells (f k) := by
  rw [joinShares, List.mapIdx_eq_zipIdx_map]
  refine List.map_congr_left fun ⟨m, k⟩ hmem => ?_
  have hk := List.mem_zipIdx' hmem
  obtain ⟨hwf, rfl, rfl⟩ := h m (hk.2 ▸ List.getElem_mem hk.1)
  have hblock : (fun share : Share β => share.blocks[k]?) ∘ ofCells m.cols matrices.length f =
      some ∘ RowBlock.ofCells m.cols (f k) := by
    funext range
    simp [ofCells, blocksOf, hk.1]
  change m.withBlocks _ = m.withCells (f k)
  rw [List.filterMap_map, hblock, ← List.filterMap_map, List.filterMap_some,
    Matrix.withBlocks_rowShares hwf]

/-- Rows that are filled by any pool have the values of their work. -/
theorem fillRows_performs {pool : Pool} {work : Nat → Outcome ε (RowCells β)}
    (hpool : 0 < pool.workers) (hturns : pool.turns.Perm (List.range pool.workers))
    (hne : matrices ≠ []) (h : Aligned matrices rows cols)
    (hwork : Fits work rows cols matrices.length) :
    Performs (storable work) (List.range rows) (fillRows pool matrices work)
      (filledWith work matrices) := by
  have hrows : (matrices.head?.map Matrix.rows).getD 0 = rows := by
    obtain ⟨m, ms, rfl⟩ := List.exists_cons_of_ne_nil hne
    exact (h m List.mem_cons_self).2.1
  have hperm : pool.turns.Perm (List.range (rowShares rows pool.workers).length) := by
    rwa [length_rowShares hpool]
  have hall : ∀ i < (rowShares rows pool.workers).length, i ∈ pool.turns := fun i hi =>
    hperm.mem_iff.mpr (List.mem_range.mpr hi)
  have hfilled : filledWith work matrices = joinShares matrices (sharesAfter work cols
      matrices.length (cellsIn matrices) (rowShares rows pool.workers) pool.turns).toList := by
    rw [sharesAfter_all (fun range => stop_le_of_mem_rowShares) hall, joinShares_rowShares h,
      filledWith]
    refine List.ext_getElem (by simp) fun k hk hk' => ?_
    rw [List.length_mapIdx] at hk
    rw [List.getElem_mapIdx, List.getElem_mapIdx]
    refine Matrix.withCells_congr fun row hr col hc => ?_
    rw [(h matrices[k] (List.getElem_mem hk)).2.1] at hr
    simp [withRows, cellsIn, hr, hk]
  rw [fillRows, hrows, cutShares_rowShares h, hfilled, ← rowShares_rows rows pool.workers]
  have hfill := (fillShares_performs (fun range => stop_le_of_mem_rowShares) hwork hperm
    (cellsIn matrices)).map fun filled => joinShares matrices filled.toList
  rw [sharesAfter_nil] at hfill
  exact hfill

end Matrices

end ZoneSkims
