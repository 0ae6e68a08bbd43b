import Mathlib.Data.List.Nodup
import ZoneSkims.Matrix.Block

/-!
# Cells by row and column

The storage of a matrix holds its cells row by row. Here it is read as a function of row and
column, and an array given by such a function is a grid.

* `grid`: the cells of neighbouring rows.
* `Matrix.cell`, `Matrix.WellFormed`: the cell of a row and a column, and a storage that has all.
* `grid_append`, `set_grid`: neighbouring grids make one, and a stored cell changes one place.
-/

namespace ZoneSkims

variable {ι β : Type}

/-! ## Places -/

theorem place_lt {row col rows cols : Nat} (hr : row < rows) (hc : col < cols) :
    row * cols + col < rows * cols :=
  calc row * cols + col < row * cols + cols := by omega
    _ = (row + 1) * cols := (Nat.succ_mul row cols).symm
    _ ≤ rows * cols := Nat.mul_le_mul_right cols hr

theorem place_div {row col cols : Nat} (hc : col < cols) : (row * cols + col) / cols = row := by
  rw [Nat.mul_comm, Nat.mul_add_div (by omega), Nat.div_eq_of_lt hc, Nat.add_zero]

theorem place_mod {row col cols : Nat} (hc : col < cols) : (row * cols + col) % cols = col := by
  rw [Nat.mul_comm, Nat.mul_add_mod, Nat.mod_eq_of_lt hc]

/-- Every place in the storage is that of a row and a column. -/
theorem exists_place {place rows cols : Nat} (h : place < rows * cols) :
    ∃ row col, row < rows ∧ col < cols ∧ place = row * cols + col := by
  have hcols : 0 < cols := by
    rcases Nat.eq_zero_or_pos cols with rfl | hcols
    · simp at h
    · exact hcols
  refine ⟨place / cols, place % cols, ?_, Nat.mod_lt _ hcols, ?_⟩
  · exact Nat.div_lt_of_lt_mul (by rwa [Nat.mul_comm] at h)
  · rw [Nat.mul_comm, Nat.div_add_mod]

/-! ## Grids -/

/-- The cells of `count` rows from row `first` on, row by row. -/
def grid (cols first count : Nat) (f : Nat → Nat → Option β) : Array (Option β) :=
  Array.ofFn fun place : Fin (count * cols) => f (first + place / cols) (place % cols)

@[simp] theorem size_grid (cols first count : Nat) (f : Nat → Nat → Option β) :
    (grid cols first count f).size = count * cols := by
  simp [grid]

theorem getElem?_grid {cols first count row col : Nat} {f : Nat → Nat → Option β}
    (hr : row < count) (hc : col < cols) :
    (grid cols first count f)[row * cols + col]? = some (f (first + row) col) := by
  rw [grid, Array.getElem?_ofFn, dif_pos (place_lt hr hc)]
  simp only [place_div hc, place_mod hc]

/-- An array with the cells of a function is its grid. -/
theorem eq_grid {xs : Array (Option β)} {cols first count : Nat} {f : Nat → Nat → Option β}
    (hsize : xs.size = count * cols)
    (h : ∀ row < count, ∀ col < cols, xs[row * cols + col]? = some (f (first + row) col)) :
    xs = grid cols first count f := by
  apply Array.ext_getElem?
  intro place
  by_cases hp : place < count * cols
  · obtain ⟨row, col, hr, hc, rfl⟩ := exists_place hp
    rw [h row hr col hc, getElem?_grid hr hc]
  · rw [Array.getElem?_eq_none (by omega), Array.getElem?_eq_none (by rw [size_grid]; omega)]

theorem grid_congr {cols first count : Nat} {f g : Nat → Nat → Option β}
    (h : ∀ row, first ≤ row → row < first + count → ∀ col < cols, f row col = g row col) :
    grid cols first count f = grid cols first count g := by
  apply eq_grid (size_grid ..)
  intro row hr col hc
  rw [getElem?_grid hr hc, h (first + row) (by omega) (by omega) col hc]

/-- Grids of neighbouring rows make one grid. -/
theorem grid_append (cols first a b : Nat) (f : Nat → Nat → Option β) :
    grid cols first a f ++ grid cols (first + a) b f = grid cols first (a + b) f := by
  apply eq_grid
  · rw [Array.size_append, size_grid, size_grid, Nat.add_mul]
  intro row hr col hc
  by_cases ha : row < a
  · rw [Array.getElem?_append_left (by rw [size_grid]; exact place_lt ha hc), getElem?_grid ha hc]
  · have hplace : row * cols + col - a * cols = (row - a) * cols + col := by
      rw [Nat.sub_mul, Nat.sub_add_comm (Nat.mul_le_mul_right cols (Nat.le_of_not_lt ha))]
    have hle : a * cols ≤ row * cols := Nat.mul_le_mul_right cols (Nat.le_of_not_lt ha)
    rw [Array.getElem?_append_right (by rw [size_grid]; omega), size_grid, hplace,
      getElem?_grid (by omega) hc, Nat.add_assoc, Nat.add_sub_cancel' (Nat.le_of_not_lt ha)]

/-- The function with another cell in one place. -/
def withCell (f : Nat → Nat → Option β) (row col : Nat) (cell : Option β) :
    Nat → Nat → Option β :=
  fun r c => if r = row ∧ c = col then cell else f r c

theorem withCell_self (f : Nat → Nat → Option β) (row col : Nat) :
    withCell f row col (f row col) = f := by
  funext r c
  rw [withCell]
  split
  next h => rw [h.1, h.2]
  next => rfl

/-- A stored cell changes one place of a grid. -/
theorem set_grid {cols first count row col : Nat} {f : Nat → Nat → Option β} {cell : Option β}
    (hfirst : first ≤ row) (hc : col < cols) :
    (grid cols first count f).setIfInBounds ((row - first) * cols + col) cell =
      grid cols first count (withCell f row col cell) := by
  apply eq_grid
  · rw [Array.size_setIfInBounds, size_grid]
  intro r hr c hc'
  rw [Array.getElem?_setIfInBounds, size_grid, getElem?_grid hr hc', withCell]
  by_cases h : first + r = row ∧ c = col
  · obtain ⟨rfl, rfl⟩ := h
    simp [place_lt hr hc']
  · rw [if_neg h, if_neg]
    intro hplace
    have hrow := congrArg (· / cols) hplace
    have hcol := congrArg (· % cols) hplace
    simp only [place_div hc, place_div hc', place_mod hc, place_mod hc'] at hrow hcol
    omega

/-! ## Matrices -/

namespace Matrix

/-- The storage has a cell for every row and column. -/
def WellFormed (m : Matrix ι β) : Prop := m.cells.size = m.rows * m.cols

/-- The cell of a row and a column, counted from 0. -/
def cell (m : Matrix ι β) (row col : Nat) : Option β :=
  m.cells[row * m.cols + col]?.join

/-- The matrix with the same ids and the cells of a function. -/
def withCells (m : Matrix ι β) (f : Nat → Nat → Option β) : Matrix ι β :=
  { m with cells := grid m.cols 0 m.rows f }

@[simp] theorem rows_withCells (m : Matrix ι β) (f : Nat → Nat → Option β) :
    (m.withCells f).rows = m.rows := rfl

@[simp] theorem cols_withCells (m : Matrix ι β) (f : Nat → Nat → Option β) :
    (m.withCells f).cols = m.cols := rfl

theorem withCells_congr {m : Matrix ι β} {f g : Nat → Nat → Option β}
    (h : ∀ row < m.rows, ∀ col < m.cols, f row col = g row col) :
    m.withCells f = m.withCells g := by
  rw [withCells, withCells, grid_congr fun row _ hr col hc => h row (by omega) col hc]

theorem wellFormed_withCells (m : Matrix ι β) (f : Nat → Nat → Option β) :
    (m.withCells f).WellFormed :=
  size_grid ..

theorem cell_withCells {m : Matrix ι β} {f : Nat → Nat → Option β} {row col : Nat}
    (hr : row < m.rows) (hc : col < m.cols) : (m.withCells f).cell row col = f row col := by
  have hplace : (m.withCells f).cells[row * m.cols + col]? = some (f (0 + row) col) :=
    getElem?_grid hr hc
  rw [cell, cols_withCells, hplace, Nat.zero_add]
  rfl

/-- The matrix with the same ids for rows and columns in which no cell is computed. -/
def blank (ids : Array ι) : Matrix ι β :=
  { rowIds := ids, colIds := ids, cells := Array.replicate (ids.size * ids.size) none }

theorem wellFormed_blank (ids : Array ι) : (blank ids : Matrix ι β).WellFormed := by
  simp [WellFormed, rows, cols, blank]

@[simp] theorem cell_blank (ids : Array ι) (row col : Nat) :
    (blank ids : Matrix ι β).cell row col = none := by
  rw [cell]
  by_cases hplace : row * ids.size + col < ids.size * ids.size
  · simp [cols, blank, hplace]
  · simp [cols, blank, hplace]

theorem WellFormed.getElem?_cells {m : Matrix ι β} (h : m.WellFormed) {row col : Nat}
    (hr : row < m.rows) (hc : col < m.cols) :
    m.cells[row * m.cols + col]? = some (m.cell row col) := by
  have hplace : row * m.cols + col < m.cells.size := by
    rw [h]
    exact place_lt hr hc
  rw [cell, Array.getElem?_eq_getElem hplace]
  rfl

theorem WellFormed.cells_eq {m : Matrix ι β} (h : m.WellFormed) :
    m.cells = grid m.cols 0 m.rows m.cell := by
  apply eq_grid h
  intro row hr col hc
  rw [h.getElem?_cells hr hc, Nat.zero_add]

/-- Matrices with the same ids and the same cells are the same. -/
theorem WellFormed.ext {m other : Matrix ι β} (h : m.WellFormed) (h' : other.WellFormed)
    (hrows : m.rowIds = other.rowIds) (hcols : m.colIds = other.colIds)
    (hcell : ∀ row < m.rows, ∀ col < m.cols, m.cell row col = other.cell row col) : m = other := by
  have hcells : m.cells = other.cells := by
    rw [h.cells_eq, h'.cells_eq, rows, cols, rows, cols, ← hrows, ← hcols]
    exact grid_congr fun row _ hr col hc => hcell row (by simpa [rows] using hr) col hc
  cases m
  cases other
  congr

end Matrix

/-! ## Ids -/

section Ids

variable [DecidableEq ι]

theorem repeatAfter?_eq_none {seen ids : List ι} :
    repeatAfter? seen ids = none ↔ ids.Nodup ∧ ∀ id ∈ ids, id ∉ seen := by
  induction ids generalizing seen with
  | nil => simp [repeatAfter?]
  | cons id ids ih =>
    rw [repeatAfter?]
    by_cases hid : id ∈ seen
    · simp [hid]
    · rw [if_neg hid, Option.map_eq_map, Option.map_eq_none_iff, ih, List.nodup_cons]
      simp only [List.mem_cons, not_or, forall_eq_or_imp]
      constructor
      · rintro ⟨hnodup, hseen⟩
        exact ⟨⟨fun hmem => (hseen id hmem).1 rfl, hnodup⟩, hid, fun a ha => (hseen a ha).2⟩
      · rintro ⟨⟨hmem, hnodup⟩, -, hseen⟩
        exact ⟨hnodup, fun a ha => ⟨fun h => hmem (h ▸ ha), hseen a ha⟩⟩

theorem firstRepeat?_eq_none {ids : List ι} : firstRepeat? ids = none ↔ ids.Nodup := by
  simp [firstRepeat?, repeatAfter?_eq_none]

namespace Matrix

/-- There is an empty matrix over ids without repetition, and over no others. -/
theorem square_eq_ok {ids : Array ι} {m : Matrix ι β} :
    square ids = .ok m ↔ ids.toList.Nodup ∧ m = blank ids := by
  rw [← firstRepeat?_eq_none]
  cases h : firstRepeat? ids.toList with
  | none => simp [square, new, distinct, h, bind, Except.bind, pure, Except.pure, eq_comm, blank]
  | some index => simp [square, new, distinct, h, bind, Except.bind]

variable {ids : Array ι} {m : Matrix ι β}

/-- The position of an id is the one where it stands. -/
theorem idxOf?_of_nodup (hnodup : ids.toList.Nodup) {i : Nat} {id : ι} (hid : ids[i]? = some id) :
    ids.idxOf? id = some i := by
  obtain ⟨ids⟩ := ids
  rw [List.getElem?_toArray, List.getElem?_eq_some_iff] at hid
  obtain ⟨hi, rfl⟩ := hid
  rw [List.idxOf?_toArray, List.idxOf?_eq_some_iff]
  refine ⟨hi, rfl, fun j hj heq => ?_⟩
  exact absurd ((hnodup.getElem_inj_iff).mp heq) (Nat.ne_of_lt hj)

/-- The cell of two ids is that of their positions. -/
theorem get?_eq_cell {row col : Nat} {rowId colId : ι} (hrows : m.rowIds.toList.Nodup)
    (hcols : m.colIds.toList.Nodup) (hr : m.rowIds[row]? = some rowId)
    (hc : m.colIds[col]? = some colId) : m.get? rowId colId = m.cell row col := by
  have hrow : m.rowIndex rowId = .ok row := by
    rw [rowIndex, rowIndex?, idxOf?_of_nodup hrows hr]
  have hcol : m.colIndex colId = .ok col := by
    rw [colIndex, colIndex?, idxOf?_of_nodup hcols hc]
  rw [get?, slot, hrow, hcol]
  rfl

end Matrix

end Ids

end ZoneSkims
