import Mathlib.Data.List.Nodup
import Mathlib.Data.List.ProdSigma
import ZoneSkims.Proofs.Matrix.Combine
import ZoneSkims.Proofs.Scalar.Undefined

/-!
# Matrices as partial maps

A matrix means a partial map from pairs of ids to values. The map is said here without positions and
without a storage, with the operations and the errors that it should have, and each operation on the
storage is shown to be the one on the map.

* `PartialMap`: a partial map on pairs of ids, with its operations.
* `Matrix.toMap`: what a matrix means. `Matrix.Sound`: its storage is in order.
* `Matrix.slot_eq`, `Matrix.place_inj`: the places of pairs of ids in the storage.
* `Matrix.toMap_set`, `Matrix.toMap_add`, `Matrix.toMap_scale`, `Matrix.toMap_combine`: what the
  operations on the storage mean.
-/

namespace ZoneSkims

variable {ι β : Type}

/-! ## Partial maps -/

/-- A partial map from pairs of ids to values, and the ids that it knows. -/
@[ext] structure PartialMap (ι β : Type) where
  rowIds : List ι
  colIds : List ι
  value : ι → ι → Option β

namespace PartialMap

/-- The map without ids. -/
def empty : PartialMap ι β where
  rowIds := []
  colIds := []
  value _ _ := none

/-- The value of a cell after an addition. A cell without a value starts from what is added. -/
def total [Add β] (cell : Option β) (value : β) : β :=
  match cell with
  | none => value
  | some current => current + value

variable [DecidableEq ι]

/-- The first position of an id that is also at an earlier one. -/
def repeatAt? (ids : List ι) : Option Nat :=
  (List.range ids.length).find? fun i => ids[i]?.any (· ∈ ids.take i)

/-- The map over two lists of ids that has no value yet. No id may be repeated. -/
def new (rowIds colIds : List ι) : Except MatrixError (PartialMap ι β) :=
  match repeatAt? rowIds, repeatAt? colIds with
  | some i, _ => .error (.repeatedId .row i)
  | none, some i => .error (.repeatedId .column i)
  | none, none => .ok { rowIds, colIds, value := fun _ _ => none }

/-- All these ids are known. -/
def Knows (map : PartialMap ι β) (rows cols : List ι) : Prop :=
  rows ⊆ map.rowIds ∧ cols ⊆ map.colIds

instance (map : PartialMap ι β) (rows cols : List ι) : Decidable (map.Knows rows cols) :=
  inferInstanceAs (Decidable (_ ∧ _))

/-- The ids have to be known, rows before columns. -/
def require (map : PartialMap ι β) (rows cols : List ι) : Except MatrixError Unit :=
  if rows ⊆ map.rowIds then
    if cols ⊆ map.colIds then .ok () else .error (.unknownId .column)
  else .error (.unknownId .row)

omit [DecidableEq ι] in
@[simp] theorem knows_singleton {map : PartialMap ι β} {row col : ι} :
    map.Knows [row] [col] ↔ row ∈ map.rowIds ∧ col ∈ map.colIds := by
  simp [Knows]

theorem require_of_knows {map : PartialMap ι β} {rows cols : List ι} (h : map.Knows rows cols) :
    map.require rows cols = .ok () := by
  rw [require, if_pos h.1, if_pos h.2]

theorem exists_of_not_knows {map : PartialMap ι β} {rows cols : List ι}
    (h : ¬ map.Knows rows cols) : ∃ axis, map.require rows cols = .error (.unknownId axis) := by
  rw [require]
  by_cases hrows : rows ⊆ map.rowIds
  · rw [if_pos hrows, if_neg fun hcols => h ⟨hrows, hcols⟩]
    exact ⟨_, rfl⟩
  · rw [if_neg hrows]
    exact ⟨_, rfl⟩

/-- What is made behind the check of ids is made when they are known. -/
theorem require_map_eq_ok {σ : Type} {map : PartialMap ι β} {rows cols : List ι} {x y : σ} :
    (map.require rows cols).map (fun _ => x) = .ok y ↔ map.Knows rows cols ∧ y = x := by
  by_cases h : map.Knows rows cols
  · rw [require_of_knows h]
    simp only [Except.map, Except.ok.injEq, h, true_and, eq_comm]
  · obtain ⟨axis, hrefused⟩ := exists_of_not_knows h
    rw [hrefused]
    exact ⟨nofun, fun hknown => absurd hknown.1 h⟩

/-- All pairs of known ids, row by row. -/
def pairs (map : PartialMap ι β) : List (ι × ι) := map.rowIds ×ˢ map.colIds

omit [DecidableEq ι] in
@[simp] theorem mem_pairs {map : PartialMap ι β} {row col : ι} :
    (row, col) ∈ map.pairs ↔ row ∈ map.rowIds ∧ col ∈ map.colIds :=
  List.mem_product

omit [DecidableEq ι] in
theorem map_pairs {γ : Type} (map : PartialMap ι β) (f : ι → ι → γ) :
    map.pairs.map (fun pair => f pair.1 pair.2) =
      map.rowIds.flatMap fun row => map.colIds.map (f row) := by
  change (map.rowIds.flatMap fun row => map.colIds.map (Prod.mk row)).map _ = _
  rw [List.map_flatMap]
  exact List.flatMap_congr fun row _ => List.map_map

/-- The map with another value for one pair of ids. -/
def update (map : PartialMap ι β) (row col : ι) (value : Option β) : PartialMap ι β :=
  { map with value := fun r c => if r = row ∧ c = col then value else map.value r c }

variable [Scalar β]

/-- Stores a value, which has to be a number. -/
def set (map : PartialMap ι β) (row col : ι) (value : β) :
    Except MatrixError (PartialMap ι β) :=
  if Scalar.isNaN value then .error .undefinedValue
  else do
    map.require [row] [col]
    return map.update row col (some value)

/-- Adds a number to the value of a pair of ids. -/
def add (map : PartialMap ι β) (row col : ι) (value : β) :
    Except MatrixError (PartialMap ι β) :=
  if Scalar.isNaN value then .error .undefinedValue
  else do
    map.require [row] [col]
    return map.update row col (some (total (map.value row col) value))

omit [DecidableEq ι] in
/-- Scales every value. -/
def scale (map : PartialMap ι β) (factor : β) : PartialMap ι β :=
  { map with
    value := fun row col => (map.value row col).map fun value =>
      if Scalar.isNaN (value * factor) then 0 else value * factor }

/-- Adds every value of another map, all ids of which have to be known. -/
def combine (map other : PartialMap ι β) : Except MatrixError (PartialMap ι β) := do
  map.require other.rowIds other.colIds
  return { map with
    value := fun row col =>
      match other.value row col with
      | none => map.value row col
      | some value => some (total (map.value row col) value) }

end PartialMap

/-! ## Repeated ids -/

section Repeats

variable [DecidableEq ι]

theorem repeatAfter?_eq_find? (seen ids : List ι) :
    repeatAfter? seen ids =
      (List.range ids.length).find? fun i => ids[i]?.any fun id => id ∈ ids.take i ∨ id ∈ seen := by
  induction ids generalizing seen with
  | nil => rfl
  | cons id ids ih =>
    rw [repeatAfter?, List.length_cons, List.range_succ_eq_map, List.find?_cons]
    by_cases hid : id ∈ seen
    · simp [hid]
    · rw [if_neg hid, ih, List.find?_map]
      simp only [List.getElem?_cons_zero, Option.any_some, List.take_zero, List.not_mem_nil, hid,
        or_self, decide_false, Option.map_eq_map]
      congr 2
      funext i
      simp only [Function.comp, List.getElem?_cons_succ, List.take_succ_cons, List.mem_cons]
      congr 1
      funext other
      congr 1
      rw [eq_iff_iff]
      tauto

/-- The repeat that is reported is the first one. -/
theorem firstRepeat?_eq_repeatAt? (ids : List ι) :
    firstRepeat? ids = PartialMap.repeatAt? ids := by
  simp [firstRepeat?, PartialMap.repeatAt?, repeatAfter?_eq_find?]

end Repeats

/-! ## Places of ids -/

namespace Matrix

variable [DecidableEq ι] {m other : Matrix ι β} {row col : ι}

/-- What a matrix means. -/
def toMap (m : Matrix ι β) : PartialMap ι β where
  rowIds := m.rowIds.toList
  colIds := m.colIds.toList
  value := m.get?

/-- No id is repeated, the storage has a cell for every pair of ids, and its values are numbers. -/
structure Sound [Scalar β] (m : Matrix ι β) : Prop where
  nodup_rowIds : m.rowIds.toList.Nodup
  nodup_colIds : m.colIds.toList.Nodup
  wellFormed : m.WellFormed
  isNumber {row col : ι} {value : β} : m.get? row col = some value → Scalar.IsNumber value

/-- The place of the cell of two known ids. -/
def place (m : Matrix ι β) (row col : ι) : Nat :=
  m.rowIds.toList.idxOf row * m.cols + m.colIds.toList.idxOf col

theorem idxOf?_toList (ids : Array ι) (id : ι) :
    ids.idxOf? id = if id ∈ ids.toList then some (ids.toList.idxOf id) else none := by
  rw [← Array.idxOf?_toList]
  split_ifs with hid
  · obtain ⟨i, hi⟩ := Option.isSome_iff_exists.mp (List.isSome_idxOf?.mpr hid)
    rw [List.idxOf_eq_getD_idxOf?, hi, Option.getD_some]
  · exact List.idxOf?_eq_none_iff.mpr hid

theorem rowIndex_eq (m : Matrix ι β) (row : ι) :
    m.rowIndex row = if row ∈ m.toMap.rowIds then .ok (m.toMap.rowIds.idxOf row)
      else .error (.unknownId .row) := by
  rw [rowIndex, rowIndex?, idxOf?_toList, toMap]
  split_ifs <;> rfl

theorem colIndex_eq (m : Matrix ι β) (col : ι) :
    m.colIndex col = if col ∈ m.toMap.colIds then .ok (m.toMap.colIds.idxOf col)
      else .error (.unknownId .column) := by
  rw [colIndex, colIndex?, idxOf?_toList, toMap]
  split_ifs <;> rfl

/-- The place of two ids is computed for known ones, and the others are refused. -/
theorem slot_eq (m : Matrix ι β) (row col : ι) :
    m.slot row col = (m.toMap.require [row] [col]).map fun _ => m.place row col := by
  rw [slot, rowIndex_eq, colIndex_eq, PartialMap.require]
  simp only [List.cons_subset, List.nil_subset, and_true]
  by_cases hrow : row ∈ m.toMap.rowIds
  · by_cases hcol : col ∈ m.toMap.colIds
    · simp only [if_pos hrow, if_pos hcol]
      rfl
    · simp only [if_pos hrow, if_neg hcol]
      rfl
  · simp only [if_neg hrow]
    rfl

/-- The place of two known ids is inside the storage. -/
theorem place_lt_size (h : m.WellFormed) (hknown : m.toMap.Knows [row] [col]) :
    m.place row col < m.cells.size := by
  rw [PartialMap.knows_singleton] at hknown
  rw [h]
  exact ZoneSkims.place_lt (List.idxOf_lt_length_iff.mpr hknown.1)
    (List.idxOf_lt_length_iff.mpr hknown.2)

/-- Different pairs of ids have different places. -/
theorem place_inj {row' col' : ι} (hknown : m.toMap.Knows [row] [col])
    (hknown' : m.toMap.Knows [row'] [col']) (h : m.place row col = m.place row' col') :
    row = row' ∧ col = col' := by
  rw [PartialMap.knows_singleton] at hknown hknown'
  have hlt : m.colIds.toList.idxOf col < m.cols := List.idxOf_lt_length_iff.mpr hknown.2
  have hlt' : m.colIds.toList.idxOf col' < m.cols := List.idxOf_lt_length_iff.mpr hknown'.2
  have hrows := congrArg (· / m.cols) h
  have hcols := congrArg (· % m.cols) h
  simp only [place] at hrows hcols
  rw [place_div hlt, place_div hlt'] at hrows
  rw [place_mod hlt, place_mod hlt'] at hcols
  exact ⟨(List.idxOf_inj hknown.1).mp hrows, (List.idxOf_inj hknown.2).mp hcols⟩

/-- The value of two ids in a storage with the same ids. -/
theorem get?_withStorage (m : Matrix ι β) (cells : Array (Option β)) (row col : ι) :
    get? { m with cells } row col =
      if m.toMap.Knows [row] [col] then cells[m.place row col]?.join else none := by
  have hslot : slot { m with cells } row col =
      (m.toMap.require [row] [col]).map fun _ => m.place row col :=
    slot_eq { m with cells } row col
  rw [get?, hslot]
  split_ifs with hknown
  · rw [PartialMap.require_of_knows hknown]
    rfl
  · obtain ⟨axis, hrefused⟩ := PartialMap.exists_of_not_knows hknown
    rw [hrefused]
    rfl

theorem get?_eq (m : Matrix ι β) (row col : ι) :
    m.get? row col = if m.toMap.Knows [row] [col] then m.cells[m.place row col]?.join else none :=
  get?_withStorage m m.cells row col

/-! ## Operations on the storage -/

/-- A changed cell changes the value of one pair of ids. -/
theorem get?_modify_cells (h : m.WellFormed) (hknown : m.toMap.Knows [row] [col])
    (change : Option β → Option β) (r c : ι) :
    get? { m with cells := m.cells.modify (m.place row col) change } r c =
      if r = row ∧ c = col then change (m.get? row col) else m.get? r c := by
  rw [get?_withStorage, get?_eq m row col, if_pos hknown, get?_eq m r c]
  by_cases hrc : m.toMap.Knows [r] [c]
  · rw [if_pos hrc, if_pos hrc, Array.getElem?_modify,
      Array.getElem?_eq_getElem (place_lt_size h hrc)]
    by_cases hsame : r = row ∧ c = col
    · obtain ⟨rfl, rfl⟩ := hsame
      rw [if_pos rfl, if_pos ⟨rfl, rfl⟩, Array.getElem?_eq_getElem (place_lt_size h hrc)]
      rfl
    · rw [if_neg hsame, if_neg]
      exact fun hplace => hsame ((place_inj hknown hrc hplace).imp Eq.symm Eq.symm)
  · rw [if_neg hrc, if_neg hrc, if_neg]
    rintro ⟨rfl, rfl⟩
    exact hrc hknown

theorem modify_eq (m : Matrix ι β) (row col : ι) (change : Option β → Option β) :
    m.modify row col change = (m.toMap.require [row] [col]).map fun _ =>
      { m with cells := m.cells.modify (m.place row col) change } := by
  rw [modify, slot_eq]
  cases m.toMap.require [row] [col] <;> rfl

theorem get?_of_modify (h : m.WellFormed) {m' : Matrix ι β} {change : Option β → Option β}
    (hm : m.modify row col change = .ok m') (r c : ι) :
    m'.get? r c = if r = row ∧ c = col then change (m.get? row col) else m.get? r c := by
  rw [modify_eq, PartialMap.require_map_eq_ok] at hm
  obtain ⟨hknown, rfl⟩ := hm
  exact get?_modify_cells h hknown change r c

theorem toMap_modify (h : m.WellFormed) (row col : ι) (change : Option β → Option β) :
    (m.modify row col change).map toMap = (m.toMap.require [row] [col]).map fun _ =>
      m.toMap.update row col (change (m.get? row col)) := by
  rw [modify_eq]
  by_cases hknown : m.toMap.Knows [row] [col]
  · rw [PartialMap.require_of_knows hknown]
    refine congrArg Except.ok (PartialMap.ext rfl rfl ?_)
    funext r c
    exact get?_modify_cells h hknown change r c
  · obtain ⟨axis, hrefused⟩ := PartialMap.exists_of_not_knows hknown
    rw [hrefused]
    rfl

/-- A new matrix has no values. -/
theorem get?_unset (rowIds colIds : Array ι) (count : Nat) (row col : ι) :
    get? { rowIds, colIds, cells := Array.replicate count (none : Option β) } row col = none := by
  rw [get?_eq]
  split_ifs
  · rw [Array.getElem?_replicate]
    split_ifs <;> rfl
  · rfl

theorem toMap_new (rowIds colIds : Array ι) :
    (new rowIds colIds : Except MatrixError (Matrix ι β)).map toMap =
      PartialMap.new rowIds.toList colIds.toList := by
  rw [new, PartialMap.new, distinct, distinct, firstRepeat?_eq_repeatAt?,
    firstRepeat?_eq_repeatAt?]
  cases PartialMap.repeatAt? rowIds.toList with
  | some i => rfl
  | none =>
    cases PartialMap.repeatAt? colIds.toList with
    | some i => rfl
    | none =>
      refine congrArg Except.ok (PartialMap.ext rfl rfl ?_)
      exact funext fun row => funext fun col => get?_unset rowIds colIds _ row col

/-! ## Cells by pairs of ids -/

theorem map_idxOf {ids : List ι} (h : ids.Nodup) : ids.map ids.idxOf = List.range ids.length :=
  List.ext_getElem (by simp) fun i hi hi' => by simp [h.idxOf_getElem]

namespace Sound

variable [Scalar β]

theorem nodup_pairs (h : m.Sound) : m.toMap.pairs.Nodup := h.nodup_rowIds.product h.nodup_colIds

/-- The storage holds the values of all pairs of ids, row by row. -/
theorem toList_cells (h : m.Sound) :
    m.cells.toList = m.toMap.pairs.map fun pair => m.get? pair.1 pair.2 := by
  have hcells : m.cells.toList =
      (List.range (m.rows * m.cols)).map fun place => m.cells[place]?.join := by
    have hlength : m.cells.toList.length = m.rows * m.cols := by
      rw [Array.length_toList, h.wellFormed]
    refine List.ext_getElem (by simp [hlength]) fun i hi hi' => ?_
    rw [Array.length_toList] at hi
    simp [Array.getElem?_eq_getElem hi]
  rw [hcells, ← flatMap_places, List.map_flatMap, rows, cols, ← Array.length_toList,
    ← Array.length_toList, ← map_idxOf h.nodup_rowIds, ← map_idxOf h.nodup_colIds,
    List.flatMap_map, PartialMap.map_pairs]
  refine List.flatMap_congr fun row hrow => ?_
  rw [List.map_map, List.map_map]
  refine List.map_congr_left fun col hcol => ?_
  rw [get?_eq, if_pos (PartialMap.knows_singleton.mpr ⟨hrow, hcol⟩)]
  rfl

end Sound

/-- Positions of ids are found when all ids are known. -/
theorem mapM_lookup {ε : Type} {index : ι → Except ε Nat} {known : List ι} {error : ε}
    (hindex : ∀ id, index id = if id ∈ known then .ok (known.idxOf id) else .error error)
    (ids : List ι) :
    ids.mapM index = if ids ⊆ known then .ok (ids.map known.idxOf) else .error error := by
  induction ids with
  | nil => simp [pure, Except.pure]
  | cons id ids ih =>
    rw [List.mapM_cons, ih, hindex]
    by_cases hid : id ∈ known
    · by_cases hids : ids ⊆ known <;> simp [hid, hids, bind, Except.bind, pure, Except.pure]
    · simp [hid, bind, Except.bind]

section Keys

variable [Scalar β] {κ : Type} {place : κ → Nat} {value : κ → Option β}

omit [DecidableEq ι]

/-- Cells that are increased one after the other, each by the value of a key. -/
theorem increaseAt_map (place : κ → Nat) (value : κ → Option β) (keys : List κ)
    (cells : Array (Option β)) :
    increaseAt cells (keys.map place) (keys.map value) =
      keys.foldl (fun cells key => cells.modify (place key) (increasedBy · (value key))) cells := by
  rw [increaseAt, List.zip_map', List.foldl_map]
  congr 1
  funext cells key
  cases hvalue : value key with
  | some v => rfl
  | none =>
    refine Array.ext_getElem? fun i => ?_
    simp [Array.getElem?_modify, increasedBy]

theorem getElem?_increaseAt_of_ne {keys : List κ} {cells : Array (Option β)} {slot : Nat}
    (h : ∀ key ∈ keys, place key ≠ slot) :
    (increaseAt cells (keys.map place) (keys.map value))[slot]? = cells[slot]? := by
  rw [increaseAt_map]
  induction keys generalizing cells with
  | nil => rfl
  | cons key keys ih =>
    rw [List.foldl_cons, ih fun key hkey => h key (List.mem_cons_of_mem _ hkey),
      Array.getElem?_modify, if_neg (h key List.mem_cons_self)]

/-- A cell is increased by the value of its key. -/
theorem getElem?_increaseAt (value : κ → Option β) (cells : Array (Option β)) {keys : List κ}
    (hnodup : keys.Nodup)
    (hinj : ∀ key ∈ keys, ∀ key' ∈ keys, place key = place key' → key = key') {key : κ}
    (hkey : key ∈ keys) :
    (increaseAt cells (keys.map place) (keys.map value))[place key]? =
      cells[place key]?.map (increasedBy · (value key)) := by
  obtain ⟨before, after, rfl⟩ := List.append_of_mem hkey
  rw [List.nodup_append, List.nodup_cons] at hnodup
  obtain ⟨-, ⟨hafter, -⟩, hbefore⟩ := hnodup
  have hne (key' : κ) (hmem : key' ∈ before ++ key :: after) (hkey' : key' ≠ key) :
      place key' ≠ place key :=
    fun hplace => hkey' (hinj key' hmem key hkey hplace)
  have hbefore' : (increaseAt cells (before.map place) (before.map value))[place key]? =
      cells[place key]? :=
    getElem?_increaseAt_of_ne fun key' hmem => hne key' (by simp [hmem])
      (hbefore key' hmem key List.mem_cons_self)
  have hafter' (cells' : Array (Option β)) :
      (increaseAt cells' (after.map place) (after.map value))[place key]? = cells'[place key]? :=
    getElem?_increaseAt_of_ne fun key' hmem => hne key' (by simp [hmem])
      fun heq => hafter (heq ▸ hmem)
  simp only [increaseAt_map] at hbefore' hafter' ⊢
  rw [List.foldl_append, List.foldl_cons, hafter', Array.getElem?_modify, if_pos rfl, hbefore']

end Keys

variable [Scalar β]

/-- The places of all pairs of ids of another matrix. -/
theorem combine_eq_map (m other : Matrix ι β) :
    m.combine other = (m.toMap.require other.toMap.rowIds other.toMap.colIds).map fun _ =>
      { m with
        cells := increaseAt m.cells (other.toMap.pairs.map fun pair => m.place pair.1 pair.2)
          other.cells.toList } := by
  have hslots : (other.toMap.rowIds.map m.toMap.rowIds.idxOf).flatMap (fun r =>
      (other.toMap.colIds.map m.toMap.colIds.idxOf).map fun c => r * m.cols + c) =
      other.toMap.pairs.map fun pair => m.place pair.1 pair.2 := by
    rw [PartialMap.map_pairs, List.flatMap_map]
    refine List.flatMap_congr fun row _ => ?_
    rw [List.map_map]
    rfl
  have hrowIds := mapM_lookup m.rowIndex_eq other.toMap.rowIds
  have hcolIds := mapM_lookup m.colIndex_eq other.toMap.colIds
  rw [PartialMap.require, ← hslots]
  change (other.toMap.rowIds.mapM m.rowIndex >>= fun rows =>
    other.toMap.colIds.mapM m.colIndex >>= _) = _
  rw [hrowIds, hcolIds]
  by_cases hrows : other.toMap.rowIds ⊆ m.toMap.rowIds
  · by_cases hcols : other.toMap.colIds ⊆ m.toMap.colIds
    · simp only [if_pos hrows, if_pos hcols]
      rfl
    · simp only [if_pos hrows, if_neg hcols]
      rfl
  · simp only [if_neg hrows]
    rfl

/-- The computed cells of another matrix are added by id, whatever the order of the ids. -/
theorem get?_increaseAt (h : m.WellFormed) (hother : other.Sound)
    (hknown : m.toMap.Knows other.toMap.rowIds other.toMap.colIds) (row col : ι) :
    get? { m with
      cells := increaseAt m.cells (other.toMap.pairs.map fun pair => m.place pair.1 pair.2)
        other.cells.toList } row col = increasedBy (m.get? row col) (other.get? row col) := by
  rw [hother.toList_cells, get?_withStorage, get?_eq m row col]
  have hknows (pair : ι × ι) (hpair : pair ∈ other.toMap.pairs) :
      m.toMap.Knows [pair.1] [pair.2] := by
    have hmem := PartialMap.mem_pairs.mp hpair
    exact PartialMap.knows_singleton.mpr ⟨hknown.1 hmem.1, hknown.2 hmem.2⟩
  have hinj (pair : ι × ι) (hpair : pair ∈ other.toMap.pairs) (pair' : ι × ι)
      (hplaces : m.toMap.Knows [pair'.1] [pair'.2])
      (hplace : m.place pair.1 pair.2 = m.place pair'.1 pair'.2) : pair = pair' :=
    Prod.ext_iff.mpr (place_inj (hknows pair hpair) hplaces hplace)
  by_cases hmem : (row, col) ∈ other.toMap.pairs
  · have hplace := getElem?_increaseAt (fun pair => other.get? pair.1 pair.2) m.cells
      hother.nodup_pairs
      (fun pair hpair pair' hpair' => hinj pair hpair pair' (hknows pair' hpair')) hmem
    rw [if_pos (hknows _ hmem), if_pos (hknows _ hmem), hplace,
      Array.getElem?_eq_getElem (place_lt_size h (hknows _ hmem))]
    rfl
  · have hnone : other.get? row col = none := by
      rw [get?_eq, if_neg]
      exact fun hknows => hmem (PartialMap.mem_pairs.mpr (PartialMap.knows_singleton.mp hknows))
    rw [hnone]
    change _ = if m.toMap.Knows [row] [col] then m.cells[m.place row col]?.join else none
    split_ifs with hrowcol
    · rw [getElem?_increaseAt_of_ne]
      rintro pair hpair hplace
      exact hmem (hinj pair hpair (row, col) hrowcol hplace ▸ hpair)
    · rfl

theorem get?_scale (m : Matrix ι β) (factor : β) (row col : ι) :
    (m.scale factor).get? row col = (m.get? row col).map (scaled factor) := by
  rw [scale, get?_withStorage, get?_eq m row col]
  split_ifs
  · rw [Array.getElem?_map]
    cases m.cells[m.place row col]? <;> rfl
  · rfl

/-! ## Operations on the map -/

theorem toMap_set (h : m.WellFormed) (row col : ι) (value : β) :
    (m.set row col value).map toMap = m.toMap.set row col value := by
  rw [set, PartialMap.set]
  split_ifs
  · rfl
  · exact toMap_modify h row col _

theorem toMap_scale (m : Matrix ι β) (factor : β) :
    (m.scale factor).toMap = m.toMap.scale factor :=
  PartialMap.ext rfl rfl (funext fun row => funext fun col => get?_scale m factor row col)

variable [LawfulSum β]

/-- An addition stays a number when it does not mix opposite infinities. -/
theorem increase_eq {cell : Option β} {value : β} (hcell : ∀ c, cell = some c → Scalar.IsNumber c)
    (hvalue : Scalar.IsNumber value) (hsum : ∀ c, cell = some c → ¬ Scalar.Opposite c value) :
    increase cell value = some (PartialMap.total cell value) := by
  cases cell with
  | none =>
    rw [increase, cellOf, if_neg (by rw [hvalue]; exact Bool.false_ne_true)]
    rfl
  | some c =>
    have hnumber : Scalar.IsNumber (c + value) :=
      LawfulSum.isNumber_add_iff.mpr ⟨hcell c rfl, hvalue, hsum c rfl⟩
    rw [increase, cellOf, if_neg (by rw [hnumber]; exact Bool.false_ne_true)]
    rfl

theorem toMap_add (h : m.Sound) {row col : ι} {value : β}
    (hsum : ∀ c, m.get? row col = some c → ¬ Scalar.Opposite c value) :
    (m.add row col value).map toMap = m.toMap.add row col value := by
  rw [add, PartialMap.add]
  split_ifs with hvalue
  · rfl
  · rw [toMap_modify h.wellFormed, increase_eq (fun c => h.isNumber)
      (Bool.eq_false_iff.mpr hvalue) hsum]
    rfl

theorem toMap_combine (h : m.Sound) (hother : other.Sound)
    (hsum : m.toMap.Knows other.toMap.rowIds other.toMap.colIds → ∀ row col c v,
      m.get? row col = some c → other.get? row col = some v → ¬ Scalar.Opposite c v) :
    (m.combine other).map toMap = m.toMap.combine other.toMap := by
  rw [combine_eq_map, PartialMap.combine]
  by_cases hknown : m.toMap.Knows other.toMap.rowIds other.toMap.colIds
  · rw [PartialMap.require_of_knows hknown]
    refine congrArg Except.ok (PartialMap.ext rfl rfl ?_)
    funext row col
    refine (get?_increaseAt h.wellFormed hother hknown row col).trans ?_
    change _ = match other.get? row col with
      | none => m.get? row col
      | some value => some (PartialMap.total (m.get? row col) value)
    cases hvalue : other.get? row col with
    | none => rfl
    | some v =>
      exact increase_eq (fun c => h.isNumber) (hother.isNumber hvalue)
        fun c hc => hsum hknown row col c v hc hvalue
  · obtain ⟨axis, hrefused⟩ := PartialMap.exists_of_not_knows hknown
    rw [hrefused]
    rfl

end Matrix

end ZoneSkims
