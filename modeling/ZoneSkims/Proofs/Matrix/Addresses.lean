import Mathlib.Data.List.Chain
import Mathlib.Logic.Relation
import ZoneSkims.Proofs.Matrix.Block
import ZoneSkims.Proofs.Scalar.Laws
import ZoneSkims.Scalar.Binary

/-!
# Blocks address the rows that they claim

A matrix is cut along any list of ranges that passes the test of `Matrix.rowBlocks`. The test reads
the starts of the ranges and the number of cells that are left. That settles where a block lies as
long as no range ends before it starts: then the ranges follow each other from the first row on,
and every row of a range is at its own place in the block. A range that ends before it starts takes
no cells but moves the next start back, so that the blocks after it claim rows that they do not
hold (`not_addressed_backAndForth`).

* `Partition`: ranges that follow each other from the first row on.
* `Matrix.Addressed`: each block reads and stores the cells of its own range.
* `Matrix.Stored`: values are stored through a block, in any row and column that it accepts.
* `Matrix.addressed_of_rowBlocks`: blocks are addressed by their ranges, whatever was stored.
-/

namespace ZoneSkims

variable {ι β : Type}

/-- Ranges that ascend without a gap from the first row on and end at or before `rows`. -/
structure Partition (rows : Nat) (ranges : List RowRange) : Prop where
  ascending : ∀ range ∈ ranges, range.start ≤ range.stop
  first : ∀ range, ranges.head? = some range → range.start = 0
  contiguous : ranges.IsChain fun range next => range.stop = next.start
  bounded : ∀ range ∈ ranges, range.stop ≤ rows

/-! ## Neighbouring ranges -/

theorem head?_consecutive {start : Nat} {lengths : List Nat} {range : RowRange}
    (h : (consecutive start lengths).head? = some range) : range.start = start := by
  cases lengths with
  | nil => cases h
  | cons length lengths =>
    cases h
    rfl

theorem isChain_consecutive (start : Nat) (lengths : List Nat) :
    (consecutive start lengths).IsChain fun range next => range.stop = next.start := by
  induction lengths generalizing start with
  | nil => exact List.IsChain.nil
  | cons length lengths ih =>
    rw [consecutive, List.isChain_cons]
    exact ⟨fun next hnext => (head?_consecutive hnext).symm, ih (start + length)⟩

theorem start_of_mem_consecutive {start : Nat} {lengths : List Nat} {range : RowRange}
    (h : range ∈ consecutive start lengths) : start ≤ range.start ∧ range.start ≤ range.stop := by
  induction lengths generalizing start with
  | nil => cases h
  | cons length lengths ih =>
    rcases List.mem_cons.mp h with rfl | h
    · exact ⟨Nat.le_refl start, Nat.le_add_right start length⟩
    · have hle := ih h
      omega

/-- Of two neighbouring ranges the later one starts where the earlier one has ended. -/
theorem pairwise_consecutive (start : Nat) (lengths : List Nat) :
    (consecutive start lengths).Pairwise fun range later => range.stop ≤ later.start := by
  induction lengths generalizing start with
  | nil => exact List.Pairwise.nil
  | cons length lengths ih =>
    rw [consecutive, List.pairwise_cons]
    exact ⟨fun later hlater => (start_of_mem_consecutive hlater).1, ih (start + length)⟩

theorem partition_consecutive {rows : Nat} {lengths : List Nat} (h : lengths.sum ≤ rows) :
    Partition rows (consecutive 0 lengths) where
  ascending range hrange := (start_of_mem_consecutive hrange).2
  first range hrange := head?_consecutive hrange
  contiguous := isChain_consecutive 0 lengths
  bounded range hrange := by
    have hstop := stop_le_of_mem_consecutive hrange
    omega

/-- A row is in one of neighbouring ranges only. -/
theorem eq_of_mem_consecutive {start : Nat} {lengths : List Nat} {i j row : Nat}
    {range other : RowRange} (hi : (consecutive start lengths)[i]? = some range)
    (hj : (consecutive start lengths)[j]? = some other) (hr : row ∈ range) (hr' : row ∈ other) :
    i = j := by
  obtain ⟨hil, rfl⟩ := List.getElem?_eq_some_iff.mp hi
  obtain ⟨hjl, rfl⟩ := List.getElem?_eq_some_iff.mp hj
  have hordered := List.pairwise_iff_getElem.mp (pairwise_consecutive start lengths)
  have hrow : row < _ := hr.2
  have hrow' : row < _ := hr'.2
  have hfirst : _ ≤ row := hr.1
  have hfirst' : _ ≤ row := hr'.1
  rcases Nat.lt_trichotomy i j with hlt | heq | hlt
  · have hle := hordered i j hil hjl hlt
    omega
  · exact heq
  · have hle := hordered j i hjl hil hlt
    omega

/-! ## Blocks of a function -/

namespace RowBlock

variable {cols row col : Nat} {f : Nat → Nat → Option β} {range : RowRange}

theorem rows_ofCells (hcols : 0 < cols) (hrange : range.start ≤ range.stop) :
    (ofCells cols f range).rows = range := by
  have hlength : range.length * cols / cols = range.length := Nat.mul_div_cancel _ hcols
  have hstop : range.start + range.length = range.stop := Nat.add_sub_cancel' hrange
  rw [rows, ofCells, size_grid, hlength, hstop]

theorem get_ofCells (hr : row ∈ range) (hc : col < cols) :
    (ofCells cols f range).get row col = .ok (f row col) := by
  have hfirst : ¬ row < range.start := Nat.not_lt.mpr hr.1
  have hcount : row - range.start < range.length := Nat.sub_lt_sub_right hr.1 hr.2
  have hcell : (grid cols range.start range.length f)[(row - range.start) * cols + col]? =
      some (f row col) := by
    rw [getElem?_grid hcount hc, Nat.add_sub_cancel' hr.1]
  simp only [get, slot, ofCells, hfirst, if_false]
  exact fetch_eq_ok.mpr hcell

/-- A block stores at the place of a row of its own, also where the column it is given lies beyond
the last one. -/
theorem exists_of_set [Scalar β] {value : β} {block' : RowBlock β}
    (hset : (ofCells cols f range).set row col value = .ok block') :
    ∃ row' ∈ range, ∃ col' < cols,
      block' = ofCells cols (withCell f row' col' (some value)) range := by
  have hvalue : Scalar.IsNumber value := by
    by_contra h
    rw [set_of_isNaN h] at hset
    cases hset
  simp only [set, show Scalar.isNaN value = false from hvalue, slot, Bool.false_eq_true,
    if_false] at hset
  split at hset
  · cases hset
  · have hplace : (row - range.start) * cols + col < range.length * cols := by
      by_contra h
      simp [ofCells, bind, Except.bind, store, h] at hset
    obtain ⟨r, c, hr, hc, heq⟩ := exists_place hplace
    have hmem : range.start + r ∈ range := by
      refine ⟨Nat.le_add_right _ r, ?_⟩
      unfold RowRange.length at hr
      omega
    have hstore : store (grid cols range.start range.length f) ((row - range.start) * cols + col)
        (some value) = .ok (grid cols range.start range.length
          (withCell f (range.start + r) c (some value))) := by
      rw [store_of_lt (by rwa [size_grid]), heq, ← set_grid hmem.1 hc, Nat.add_sub_cancel_left]
    refine ⟨range.start + r, hmem, c, hc, ?_⟩
    change (do
      let cells ← store (grid cols range.start range.length f)
        ((row - range.start) * cols + col) (some value)
      return { firstRow := range.start, cols, cells } : Checked (RowBlock β)) = .ok block' at hset
    rw [hstore] at hset
    exact (Except.ok.inj hset).symm

end RowBlock

namespace Matrix

open RowBlock

variable {m : Matrix ι β} {ranges : List RowRange} {blocks blocks' : List (RowBlock β)}
  {lengths : List Nat} {f : Nat → Nat → Option β}

/-! ## The cut -/

/-- Ranges along which cells were cut follow each other, and there are cells for all their rows. -/
theorem consecutive_of_cutRows {cols start : Nat} {rest : Array (Option β)}
    (hforward : ∀ range ∈ ranges, range.start ≤ range.stop)
    (hcut : cutRows cols start rest ranges = .ok blocks) :
    ∃ lengths : List Nat, ranges = consecutive start lengths ∧
      lengths.sum * cols ≤ rest.size := by
  induction ranges generalizing start rest blocks with
  | nil => exact ⟨[], rfl, by simp⟩
  | cons range ranges ih =>
    rw [cutRows] at hcut
    split at hcut
    · cases hcut
    next hstart =>
    simp only at hcut
    split at hcut
    · cases hcut
    next hcount =>
    cases htail : cutRows cols range.stop (rest.extract (range.length * cols) rest.size) ranges with
    | error e =>
      rw [htail] at hcut
      cases hcut
    | ok tail =>
      obtain ⟨lengths, rfl, hsum⟩ :=
        ih (fun next hnext => hforward next (List.mem_cons_of_mem _ hnext)) htail
      rw [Array.size_extract, Nat.min_self] at hsum
      have hle := hforward range List.mem_cons_self
      have hstop : range.stop = start + range.length := by
        unfold RowRange.length
        omega
      refine ⟨range.length :: lengths, ?_, ?_⟩
      · rw [consecutive, ← hstop, ← not_not.mp hstart]
      · rw [List.sum_cons, Nat.add_mul]
        omega

/-- Ranges along which a matrix with columns is cut stay within its rows. -/
theorem consecutive_of_rowBlocks (hm : m.WellFormed) (hcols : 0 < m.cols)
    (hforward : ∀ range ∈ ranges, range.start ≤ range.stop)
    (hcut : m.rowBlocks ranges = .ok blocks) :
    ∃ lengths : List Nat, ranges = consecutive 0 lengths ∧ lengths.sum ≤ m.rows := by
  obtain ⟨lengths, hranges, hsum⟩ := consecutive_of_cutRows hforward hcut
  rw [hm] at hsum
  exact ⟨lengths, hranges, Nat.le_of_mul_le_mul_right hsum hcols⟩

/-- Cells after those of the ranges are left over. -/
theorem cutRows_append {cols start : Nat} {rest : Array (Option β)} (extra : Array (Option β))
    (hcut : cutRows cols start rest ranges = .ok blocks) :
    cutRows cols start (rest ++ extra) ranges = .ok blocks := by
  induction ranges generalizing start rest blocks with
  | nil => exact hcut
  | cons range ranges ih =>
    rw [cutRows] at hcut ⊢
    simp only at hcut ⊢
    split at hcut
    · cases hcut
    next hstart =>
    rw [if_neg hstart]
    split at hcut
    · cases hcut
    next hcount =>
    have hhead : (rest ++ extra).extract 0 (range.length * cols) =
        rest.extract 0 (range.length * cols) := by
      rw [Array.extract_append, Nat.sub_eq_zero_of_le (Nat.le_of_not_lt hcount)]
      simp
    have htail : (rest ++ extra).extract (range.length * cols) (rest ++ extra).size =
        rest.extract (range.length * cols) rest.size ++ extra := by
      rw [Array.extract_append, Nat.sub_eq_zero_of_le (Nat.le_of_not_lt hcount), Array.size_append,
        Nat.add_sub_cancel_left, Array.extract_size,
        Array.extract_eq_extract_right.mpr (by omega : _ = min (rest.size - _) _)]
    rw [if_neg (by rw [Array.size_append]; omega), hhead, htail]
    cases hnext : cutRows cols range.stop (rest.extract (range.length * cols) rest.size) ranges with
    | error e =>
      rw [hnext] at hcut
      cases hcut
    | ok tail =>
      rw [hnext] at hcut
      rw [ih hnext]
      exact hcut

/-- A matrix is cut along all neighbouring ranges that stay within its rows. -/
theorem rowBlocks_consecutive (hm : m.WellFormed) (hsum : lengths.sum ≤ m.rows) :
    m.rowBlocks (consecutive 0 lengths) =
      .ok ((consecutive 0 lengths).map (ofCells m.cols m.cell)) := by
  have hcells : m.cells = grid m.cols 0 lengths.sum m.cell ++
      grid m.cols lengths.sum (m.rows - lengths.sum) m.cell := by
    have hsplit := grid_append m.cols 0 lengths.sum (m.rows - lengths.sum) m.cell
    rw [Nat.zero_add, Nat.add_sub_cancel' hsum] at hsplit
    rw [hsplit, ← hm.cells_eq]
  rw [rowBlocks, hcells]
  exact cutRows_append _ (cutRows_consecutive m.cols 0 lengths m.cell)

/-! ## Blocks that are put back -/

/-- The cells of `f` in the first rows and those of the matrix in the others. -/
def overlay (m : Matrix ι β) (count : Nat) (f : Nat → Nat → Option β) : Nat → Nat → Option β :=
  fun row col => if row < count then f row col else m.cell row col

theorem overlay_withCell (m : Matrix ι β) {count row : Nat} (h : row < count)
    (f : Nat → Nat → Option β) (col : Nat) (cell : Option β) :
    m.overlay count (withCell f row col cell) = withCell (m.overlay count f) row col cell := by
  funext r c
  unfold overlay withCell
  by_cases hcell : r = row ∧ c = col
  · rw [if_pos hcell, if_pos hcell, if_pos (hcell.1 ▸ h)]
  · rw [if_neg hcell, if_neg hcell]

/-- Blocks that are put back replace the cells of their rows. -/
theorem withBlocks_consecutive (hm : m.WellFormed) (hsum : lengths.sum ≤ m.rows)
    (f : Nat → Nat → Option β) :
    m.withBlocks ((consecutive 0 lengths).map (ofCells m.cols f)) =
      m.withCells (m.overlay lengths.sum f) := by
  have hjoined := foldl_blocks m.cols 0 lengths f #[]
  rw [Array.empty_append] at hjoined
  have hfront : grid m.cols 0 lengths.sum f =
      grid m.cols 0 lengths.sum (m.overlay lengths.sum f) :=
    grid_congr fun row _ hr col _ => by rw [overlay, if_pos (by omega)]
  have hback : m.cells.extract (lengths.sum * m.cols) m.cells.size =
      grid m.cols lengths.sum (m.rows - lengths.sum) (m.overlay lengths.sum f) := by
    have hsplit := grid_append m.cols 0 lengths.sum (m.rows - lengths.sum) m.cell
    rw [Nat.zero_add, Nat.add_sub_cancel' hsum, ← hm.cells_eq] at hsplit
    rw [← hsplit, ← size_grid m.cols 0 lengths.sum m.cell, Array.size_append,
      Array.extract_append_right, Array.extract_size]
    exact grid_congr fun row hr _ col _ => by rw [overlay, if_neg (by omega)]
  have hcells := grid_append m.cols 0 lengths.sum (m.rows - lengths.sum) (m.overlay lengths.sum f)
  rw [Nat.zero_add, Nat.add_sub_cancel' hsum] at hcells
  simp only [withBlocks, withCells, hjoined, size_grid, hback, hfront, hcells]

theorem cellAt_withCells {row col : Nat} (hr : row < m.rows) (hc : col < m.cols) :
    (m.withCells f).cellAt row col = .ok (f row col) := by
  have hcell : (grid m.cols 0 m.rows f)[row * m.cols + col]? = some (f row col) := by
    rw [getElem?_grid hr hc, Nat.zero_add]
  exact fetch_eq_ok.mpr hcell

/-! ## Stored values -/

/-- Blocks of neighbouring ranges in which one of them stores a value of its own rows. -/
theorem set_map_ofCells {cols k row col : Nat} {range : RowRange} {cell : Option β}
    (hk : (consecutive 0 lengths)[k]? = some range) (hr : row ∈ range) :
    ((consecutive 0 lengths).map (ofCells cols f)).set k
        (ofCells cols (withCell f row col cell) range) =
      (consecutive 0 lengths).map (ofCells cols (withCell f row col cell)) := by
  apply List.ext_getElem?
  intro j
  rw [List.getElem?_set]
  by_cases hkj : k = j
  · subst hkj
    have hlt : k < ((consecutive 0 lengths).map (ofCells cols f)).length := by
      rw [List.length_map]
      exact (List.getElem?_eq_some_iff.mp hk).1
    rw [if_pos rfl, if_pos hlt, List.getElem?_map, hk, Option.map_some]
  · rw [if_neg hkj, List.getElem?_map, List.getElem?_map]
    cases hj : (consecutive 0 lengths)[j]? with
    | none => rfl
    | some other =>
      -- the row lies in the range of block `k` and therefore in no other
      rw [Option.map_some, Option.map_some, ofCells_congr]
      intro r hother c _
      rw [withCell, if_neg]
      rintro ⟨rfl, -⟩
      exact hkj (eq_of_mem_consecutive hk hj hr hother)

variable [Scalar β]

/-- A value is stored through one of the blocks, in a row and a column that it accepts. -/
def Stored (blocks blocks' : List (RowBlock β)) : Prop :=
  ∃ (k row col : Nat) (value : β) (block block' : RowBlock β), blocks[k]? = some block ∧
    block.set row col value = .ok block' ∧ blocks' = blocks.set k block'

/-- Blocks of neighbouring ranges stay blocks of one function, whatever they store. -/
theorem exists_of_stored {cols : Nat} (h : blocks = (consecutive 0 lengths).map (ofCells cols f))
    (hstored : Stored blocks blocks') :
    ∃ g, blocks' = (consecutive 0 lengths).map (ofCells cols g) := by
  obtain ⟨k, row, col, value, block, block', hblock, hset, rfl⟩ := hstored
  rw [h, List.getElem?_map, Option.map_eq_some_iff] at hblock
  obtain ⟨range, hrange, rfl⟩ := hblock
  obtain ⟨row', hr, col', -, rfl⟩ := exists_of_set hset
  exact ⟨withCell f row' col' (some value), by rw [h, set_map_ofCells hrange hr]⟩

theorem exists_of_reachable {cols : Nat}
    (h : blocks = (consecutive 0 lengths).map (ofCells cols f))
    (hstored : Relation.ReflTransGen Stored blocks blocks') :
    ∃ g, blocks' = (consecutive 0 lengths).map (ofCells cols g) := by
  induction hstored with
  | refl => exact ⟨f, h⟩
  | tail _ hlast ih =>
    obtain ⟨g, hg⟩ := ih
    exact exists_of_stored hg hlast

/-! ## Addresses -/

/-- Each block reads and stores the cells of its own range, at the places that they have in the
matrix into which the blocks are put back. -/
structure Addressed (m : Matrix ι β) (ranges : List RowRange) (blocks : List (RowBlock β)) :
    Prop where
  partition : Partition m.rows ranges
  rows : blocks.map RowBlock.rows = ranges
  get {k : Nat} {range : RowRange} {block : RowBlock β} : ranges[k]? = some range →
    blocks[k]? = some block → ∀ row ∈ range, ∀ col < m.cols, ∃ cell,
      block.get row col = .ok cell ∧ (m.withBlocks blocks).cellAt row col = .ok cell
  set {k : Nat} {range : RowRange} {block : RowBlock β} : ranges[k]? = some range →
    blocks[k]? = some block → ∀ row ∈ range, ∀ col < m.cols, ∀ value, Scalar.IsNumber value →
      ∃ block', block.set row col value = .ok block' ∧
        (m.withBlocks (blocks.set k block')) =
          { m.withBlocks blocks with
            cells := (m.withBlocks blocks).cells.setIfInBounds (row * m.cols + col) (some value) }
  disjoint {i j : Nat} {range other : RowRange} : i ≠ j → ranges[i]? = some range →
    ranges[j]? = some other → ∀ row ∈ range, ∀ row' ∈ other, ∀ col < m.cols, ∀ col' < m.cols,
      row * m.cols + col ≠ row' * m.cols + col'

omit [Scalar β] in
/-- The block of a range is the one of the function, and its rows are among those that are taken. -/
theorem block_of_range {cols k row : Nat} {range : RowRange} {block : RowBlock β}
    (hrange : (consecutive 0 lengths)[k]? = some range)
    (hblock : ((consecutive 0 lengths).map (ofCells cols f))[k]? = some block) (hr : row ∈ range) :
    block = ofCells cols f range ∧ row < lengths.sum := by
  have hstop := stop_le_of_mem_consecutive (List.mem_of_getElem? hrange)
  rw [List.getElem?_map, hrange, Option.map_some] at hblock
  exact ⟨(Option.some.inj hblock).symm, Nat.lt_of_lt_of_le hr.2 (by omega)⟩

theorem addressed_consecutive (hm : m.WellFormed) (hcols : 0 < m.cols)
    (hsum : lengths.sum ≤ m.rows) (f : Nat → Nat → Option β) :
    m.Addressed (consecutive 0 lengths) ((consecutive 0 lengths).map (ofCells m.cols f)) where
  partition := partition_consecutive hsum
  rows := by
    rw [List.map_map]
    refine (List.map_congr_left fun range hrange => ?_).trans (List.map_id _)
    exact rows_ofCells hcols (start_of_mem_consecutive hrange).2
  get {k range block} hrange hblock row hr col hc := by
    obtain ⟨rfl, hrow⟩ := block_of_range hrange hblock hr
    refine ⟨f row col, get_ofCells hr hc, ?_⟩
    rw [withBlocks_consecutive hm hsum, cellAt_withCells (Nat.lt_of_lt_of_le hrow hsum) hc, overlay,
      if_pos hrow]
  set {k range block} hrange hblock row hr col hc value hvalue := by
    obtain ⟨rfl, hrow⟩ := block_of_range hrange hblock hr
    refine ⟨_, set_ofCells hvalue hr hc, ?_⟩
    rw [set_map_ofCells hrange hr, withBlocks_consecutive hm hsum, withBlocks_consecutive hm hsum,
      overlay_withCell m hrow, withCells, withCells, ← set_grid (Nat.zero_le row) hc, Nat.sub_zero]
  disjoint {i j range other} hij hi hj row hr row' hr' col hc col' hc' heq := by
    have hrow := congrArg (· / m.cols) heq
    simp only [place_div hc, place_div hc'] at hrow
    exact hij (eq_of_mem_consecutive hi hj hr (hrow ▸ hr'))

/-- Blocks address the rows of their ranges as long as no range ends before it starts. They are the
whole matrix when they are cut, and they keep their addresses whatever is stored through them. -/
theorem addressed_of_rowBlocks (hm : m.WellFormed) (hcols : 0 < m.cols)
    (hforward : ∀ range ∈ ranges, range.start ≤ range.stop)
    (hcut : m.rowBlocks ranges = .ok blocks) :
    m.withBlocks blocks = m ∧
      ∀ blocks', Relation.ReflTransGen Stored blocks blocks' → m.Addressed ranges blocks' := by
  obtain ⟨lengths, rfl, hsum⟩ := consecutive_of_rowBlocks hm hcols hforward hcut
  have hblocks := Except.ok.inj (hcut.symm.trans (rowBlocks_consecutive hm hsum))
  constructor
  · have hsame : m.overlay lengths.sum m.cell = m.cell := by
      funext row col
      exact ite_self _
    rw [hblocks, withBlocks_consecutive hm hsum, hsame, withCells, ← hm.cells_eq]
  · intro blocks' hstored
    obtain ⟨f, rfl⟩ := exists_of_reachable hblocks hstored
    exact addressed_consecutive hm hcols hsum f

end Matrix

/-- A matrix of three rows and one column in which no cell is computed. -/
def threeRows : Matrix String Float32 :=
  { rowIds := #["A", "B", "C"], colIds := #["X"], cells := Array.replicate 3 none }

/-- The blocks of two rows, of none and of the last row. -/
theorem addressed_threeRows :
    ∃ blocks, threeRows.rowBlocks [⟨0, 2⟩, ⟨2, 2⟩, ⟨2, 3⟩] = .ok blocks ∧
      threeRows.withBlocks blocks = threeRows ∧
      ∀ blocks', Relation.ReflTransGen Matrix.Stored blocks blocks' →
        threeRows.Addressed [⟨0, 2⟩, ⟨2, 2⟩, ⟨2, 3⟩] blocks' :=
  ⟨_, rfl, Matrix.addressed_of_rowBlocks rfl (by decide) (by decide) rfl⟩

/-! ## A range that ends before it starts -/

/-- Two rows forward, one row back, and the second row once more. -/
def backAndForth : List RowRange := [⟨0, 2⟩, ⟨2, 1⟩, ⟨1, 2⟩]

/-- The matrix is cut along these ranges although they are no partition. The last block claims the
second row, and a value for that row is stored in the third. -/
theorem not_addressed_backAndForth :
    ∃ blocks block block', threeRows.WellFormed ∧ 0 < threeRows.cols ∧
      threeRows.rowBlocks backAndForth = .ok blocks ∧
      ¬ threeRows.Addressed backAndForth blocks ∧
      blocks[2]? = some block ∧ block.rows = ⟨1, 2⟩ ∧ block.set 1 0 0 = .ok block' ∧
      (threeRows.withBlocks (blocks.set 2 block')).cells = #[none, none, some 0] := by
  refine ⟨_, _, { firstRow := 1, cols := 1, cells := #[some 0] }, rfl, by decide, rfl, ?_, rfl, rfl,
    rfl, rfl⟩
  intro h
  exact absurd (h.partition.ascending ⟨2, 1⟩ (by decide)) (by decide)

end ZoneSkims
