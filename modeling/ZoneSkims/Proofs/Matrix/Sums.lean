import ZoneSkims.Proofs.Matrix.Refinement
import ZoneSkims.Proofs.Scalar.ExactSum

/-!
# The order of sums of matrices

A sum of matrices is made cell by cell, by id. So over the same ids, listed in any orders, its laws
are those of sums of cells: a cell that was never computed is neutral, computed ones can change
places, and three of them can be added in any order as long as no sum is rounded.

* `increasedBy_comm`, `increasedBy_assoc`: the laws for cells.
* `Matrix.SameIds`: matrices over the same ids.
* `Matrix.Sound.ext`: a matrix is told by its ids and what it gives for them.
* `Matrix.sum_laws`: the laws for matrices.
-/

namespace ZoneSkims

variable {ι β : Type}

/-! ## Cells -/

section Cells

variable [Scalar β]

theorem cellOf_of_isNumber {value : β} (h : Scalar.IsNumber value) : cellOf value = some value :=
  if_neg (Bool.eq_false_iff.mp h)

/-- A cell that was never computed takes the other one. -/
theorem none_increasedBy {cell : Option β} (h : ∀ v ∈ cell, Scalar.IsNumber v) :
    increasedBy none cell = cell := by
  cases cell with
  | none => rfl
  | some v => exact cellOf_of_isNumber (h v rfl)

theorem isNumber_of_increasedBy {cell other : Option β} (h : ∀ v ∈ cell, Scalar.IsNumber v) :
    ∀ v ∈ increasedBy cell other, Scalar.IsNumber v := by
  intro v hv
  cases other with
  | none => exact h v hv
  | some a => exact Matrix.isNumber_of_increase hv

end Cells

section Single

variable {x y z : Option Float32}

theorem increasedBy_comm (hx : ∀ v ∈ x, Scalar.IsNumber v) (hy : ∀ v ∈ y, Scalar.IsNumber v) :
    increasedBy x y = increasedBy y x := by
  cases x with
  | none => exact none_increasedBy hy
  | some v =>
    cases y with
    | none => exact (none_increasedBy hx).symm
    | some w => exact congrArg cellOf (single_add_comm v w)

/-- No sum of the computed ones among three cells is rounded, whichever two are added first. -/
def CellsAddExactly (x y z : Option Float32) : Prop :=
  ∀ a ∈ x, ∀ b ∈ y, ∀ c ∈ z,
    AddsExactly a b ∧ AddsExactly (a + b) c ∧ AddsExactly b c ∧ AddsExactly a (b + c)

theorem increasedBy_assoc (hy : ∀ v ∈ y, Scalar.IsNumber v) (hz : ∀ v ∈ z, Scalar.IsNumber v)
    (h : CellsAddExactly x y z) :
    increasedBy (increasedBy x y) z = increasedBy x (increasedBy y z) := by
  cases x with
  | none =>
    rw [none_increasedBy hy, none_increasedBy (isNumber_of_increasedBy hy)]
  | some a =>
    cases y with
    | none => rw [none_increasedBy hz]; rfl
    | some b =>
      cases z with
      | none => rfl
      | some c =>
        obtain ⟨hab, hab', hbc, hbc'⟩ := h a rfl b rfl c rfl
        have hleft : increasedBy (some a) (some b) = some (a + b) :=
          cellOf_of_isNumber (single_isNumber_of_isFinite hab.isFinite)
        have hright : increasedBy (some b) (some c) = some (b + c) :=
          cellOf_of_isNumber (single_isNumber_of_isFinite hbc.isFinite)
        rw [hleft, hright]
        exact congrArg cellOf (hab.add_assoc hab' hbc hbc')

end Single

/-! ## Matrices -/

namespace Matrix

section SameIds

variable {m other : Matrix ι β}

/-- Two matrices are over the same ids, listed in any orders. -/
def SameIds (m other : Matrix ι β) : Prop :=
  (∀ id, id ∈ m.rowIds.toList ↔ id ∈ other.rowIds.toList) ∧
    ∀ id, id ∈ m.colIds.toList ↔ id ∈ other.colIds.toList

theorem SameIds.symm (h : m.SameIds other) : other.SameIds m :=
  ⟨fun id => (h.1 id).symm, fun id => (h.2 id).symm⟩

theorem SameIds.trans {last : Matrix ι β} (h : m.SameIds other) (h' : other.SameIds last) :
    m.SameIds last :=
  ⟨fun id => (h.1 id).trans (h'.1 id), fun id => (h.2 id).trans (h'.2 id)⟩

theorem SameIds.knows [DecidableEq ι] (h : m.SameIds other) :
    m.toMap.Knows other.toMap.rowIds other.toMap.colIds :=
  ⟨fun id => (h.1 id).mpr, fun id => (h.2 id).mpr⟩

end SameIds

variable [DecidableEq ι]

section Generic

variable [Scalar β] {m other : Matrix ι β}

/-- A matrix is told by its ids and what it gives for them. -/
theorem Sound.ext (h : m.Sound) (hother : other.Sound) (hrows : m.rowIds = other.rowIds)
    (hcols : m.colIds = other.colIds) (hcells : ∀ row col, m.get? row col = other.get? row col) :
    m = other := by
  have hmaps : m.toMap = other.toMap :=
    PartialMap.ext (congrArg Array.toList hrows) (congrArg Array.toList hcols) (funext₂ hcells)
  have hlist : m.cells.toList = other.cells.toList := by
    rw [h.toList_cells, hother.toList_cells, hmaps]
    exact List.map_congr_left fun pair _ => hcells pair.1 pair.2
  cases m
  cases other
  cases hrows
  cases hcols
  exact congrArg _ (Array.toList_inj.mp hlist)

/-- The sum of matrices over the same ids is over the ids of the first one, and adds cells by id. -/
theorem exists_combine (h : m.Sound) (hother : other.Sound) (hids : m.SameIds other) :
    ∃ total, m.combine other = .ok total ∧ total.Sound ∧ total.rowIds = m.rowIds ∧
      total.colIds = m.colIds ∧
      ∀ row col, total.get? row col = increasedBy (m.get? row col) (other.get? row col) := by
  have hsum := combine_eq_map m other
  rw [PartialMap.require_of_knows hids.knows] at hsum
  exact ⟨_, hsum, h.combine hother hsum, rfl, rfl,
    get?_increaseAt h.wellFormed hother hids.knows⟩

theorem Sound.isNumber_cell (h : m.Sound) (row col : ι) :
    ∀ v ∈ m.get? row col, Scalar.IsNumber v := fun _ hv => h.isNumber hv

end Generic

variable {a b c : Matrix ι Float32}

/-- Over the same ids, listed in any orders, two matrices have the same sum both ways, in every cell;
a matrix without computed cells changes no other one; and three matrices in the cells of which no sum
is rounded have the same sum whichever two are added first. -/
theorem sum_laws (ha : a.Sound) (hb : b.Sound) (hc : c.Sound) (hab : a.SameIds b)
    (hbc : b.SameIds c) :
    (∃ ab ba, a.combine b = .ok ab ∧ b.combine a = .ok ba ∧
      ∀ row col, ab.get? row col = ba.get? row col) ∧
    ((∀ row col, b.get? row col = none) → a.combine b = .ok a ∧
      ∃ ba, b.combine a = .ok ba ∧ ∀ row col, ba.get? row col = a.get? row col) ∧
    ((∀ row col, CellsAddExactly (a.get? row col) (b.get? row col) (c.get? row col)) →
      ∃ ab bc total, a.combine b = .ok ab ∧ ab.combine c = .ok total ∧
        b.combine c = .ok bc ∧ a.combine bc = .ok total) := by
  obtain ⟨ab, hsum, hsound, hrows, hcols, hcells⟩ := exists_combine ha hb hab
  obtain ⟨ba, hsum', -, -, -, hcells'⟩ := exists_combine hb ha hab.symm
  have hcomm (row col : ι) : ab.get? row col = ba.get? row col := by
    rw [hcells, hcells', increasedBy_comm (ha.isNumber_cell row col) (hb.isNumber_cell row col)]
  refine ⟨⟨ab, ba, hsum, hsum', hcomm⟩, fun hblank => ?_, fun hexact => ?_⟩
  · have hsame (row col : ι) : ab.get? row col = a.get? row col := by
      rw [hcells, hblank]
      rfl
    exact ⟨hsum.trans (congrArg _ (hsound.ext ha hrows hcols hsame)), ba, hsum',
      fun row col => (hcomm row col).symm.trans (hsame row col)⟩
  · obtain ⟨bc, hsumbc, hsoundbc, hrowsbc, hcolsbc, hcellsbc⟩ := exists_combine hb hc hbc
    have habc : ab.SameIds c := by
      have := hab.trans hbc
      rwa [SameIds, hrows, hcols]
    have habc' : a.SameIds bc := by
      rwa [SameIds, hrowsbc, hcolsbc]
    obtain ⟨total, htotal, hsoundt, hrowst, hcolst, hcellst⟩ := exists_combine hsound hc habc
    obtain ⟨total', htotal', hsoundt', hrowst', hcolst', hcellst'⟩ :=
      exists_combine ha hsoundbc habc'
    obtain rfl : total = total' := by
      refine hsoundt.ext hsoundt' (hrowst.trans (hrows.trans hrowst'.symm))
        (hcolst.trans (hcols.trans hcolst'.symm)) fun row col => ?_
      rw [hcellst, hcellst', hcells, hcellsbc, increasedBy_assoc (hb.isNumber_cell row col)
        (hc.isNumber_cell row col) (hexact row col)]
    exact ⟨ab, bc, total, hsum, htotal, hsumbc, htotal'⟩

end Matrix

/-! ## Four seasons -/

/-- Trips of a season between two places, in any order of the places. -/
def spring : Matrix Bool Float32 where
  rowIds := #[false, true]
  colIds := #[true, false]
  cells := #[some 1, some (-0), none, some 0.5]

def summer : Matrix Bool Float32 where
  rowIds := #[true, false]
  colIds := #[true, false]
  cells := #[some 3, some 0.25, some 8, some (-0)]

def autumn : Matrix Bool Float32 where
  rowIds := #[true, false]
  colIds := #[false, true]
  cells := #[some (-0.75), some 2, none, some 0.125]

/-- In winter there are no trips. -/
def winter : Matrix Bool Float32 where
  rowIds := #[false, true]
  colIds := #[false, true]
  cells := #[none, none, none, none]

theorem sum_laws_seasons :
    (spring.Sound ∧ summer.Sound ∧ autumn.Sound ∧ winter.Sound) ∧
      (spring.SameIds summer ∧ summer.SameIds autumn) ∧
      (spring.SameIds winter ∧ winter.SameIds autumn) ∧
      (∀ row col, CellsAddExactly (spring.get? row col) (summer.get? row col)
        (autumn.get? row col)) ∧
      (∀ row col, winter.get? row col = none) ∧
      (∃ early late total, spring.combine summer = .ok early ∧ early.combine autumn = .ok total ∧
        summer.combine autumn = .ok late ∧ spring.combine late = .ok total) ∧
      spring.combine winter = .ok spring := by
  have hnumbers : ∀ m ∈ [spring, summer, autumn, winter], ∀ row col, ∀ v ∈ m.get? row col,
      Scalar.isNaN v = false := by
    decide +kernel
  have hspring : spring.Sound :=
    ⟨by decide, by decide, rfl, fun hv => hnumbers spring (by simp) _ _ _ hv⟩
  have hsummer : summer.Sound :=
    ⟨by decide, by decide, rfl, fun hv => hnumbers summer (by simp) _ _ _ hv⟩
  have hautumn : autumn.Sound :=
    ⟨by decide, by decide, rfl, fun hv => hnumbers autumn (by simp) _ _ _ hv⟩
  have hwinter : winter.Sound :=
    ⟨by decide, by decide, rfl, fun hv => hnumbers winter (by simp) _ _ _ hv⟩
  have hwarm : spring.SameIds summer ∧ summer.SameIds autumn := by
    unfold Matrix.SameIds
    decide
  have hcold : spring.SameIds winter ∧ winter.SameIds autumn := by
    unfold Matrix.SameIds
    decide
  have hexact : ∀ row col, CellsAddExactly (spring.get? row col) (summer.get? row col)
      (autumn.get? row col) := by
    unfold CellsAddExactly
    decide +kernel
  have hnone : ∀ row col, winter.get? row col = none := by decide +kernel
  obtain ⟨-, -, hassoc⟩ := Matrix.sum_laws hspring hsummer hautumn hwarm.1 hwarm.2
  obtain ⟨-, hblank, -⟩ := Matrix.sum_laws hspring hwinter hautumn hcold.1 hcold.2
  exact ⟨⟨hspring, hsummer, hautumn, hwinter⟩, hwarm, hcold, hexact, hnone, hassoc hexact,
    (hblank hnone).1⟩

end ZoneSkims
