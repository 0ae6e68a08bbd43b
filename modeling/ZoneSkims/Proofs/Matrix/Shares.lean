import ZoneSkims.Proofs.Matrix.Addresses

/-!
# Fair shares of the rows

The rows are divided by a quotient and a remainder: every share has as many rows as the quotient
says, and the first ones take one row of the remainder each. So the shares end exactly where the
rows do, whatever is left over, and with more shares than rows the later ones are empty.

* `FairShares`: ranges that hold every row once and differ in length by at most one.
* `fairShares_rowShares`: the rows are divided into as many fair shares as there are parts.
-/

namespace ZoneSkims

/-- Ranges that follow each other from the first row to the last, so that every row is in exactly one
of them, none longer than one before it and none longer than another by more than one row. -/
structure FairShares (rows : Nat) (ranges : List RowRange) : Prop where
  partition : Partition rows ranges
  last : ∀ range, ranges.getLast? = some range → range.stop = rows
  once : ∀ row < rows, ∃! i : Nat, ∃ range, ranges[i]? = some range ∧ row ∈ range
  descending : ranges.Pairwise fun range later => later.length ≤ range.length
  balanced : ∀ range ∈ ranges, ∀ other ∈ ranges, range.length ≤ other.length + 1

/-! ## Neighbouring ranges -/

theorem map_length_consecutive (start : Nat) (lengths : List Nat) :
    (consecutive start lengths).map RowRange.length = lengths := by
  induction lengths generalizing start with
  | nil => rfl
  | cons length lengths ih => rw [consecutive, List.map_cons, RowRange.length_mk, ih]

/-- Neighbouring ranges end after as many rows as they have together. -/
theorem stop_of_getLast?_consecutive {start : Nat} {lengths : List Nat} {range : RowRange}
    (h : (consecutive start lengths).getLast? = some range) :
    range.stop = start + lengths.sum := by
  induction lengths generalizing start with
  | nil => cases h
  | cons length lengths ih =>
    rw [consecutive, List.getLast?_cons] at h
    rw [List.sum_cons, ← Nat.add_assoc]
    cases hlast : (consecutive (start + length) lengths).getLast? with
    | some later =>
      rw [hlast] at h
      cases h
      exact ih hlast
    | none =>
      rw [hlast] at h
      cases h
      have hnil : lengths.length = 0 := by
        rw [← length_consecutive (start + length), List.getLast?_eq_none_iff.mp hlast]
        rfl
      rw [List.length_eq_zero_iff.mp hnil]
      rfl

/-! ## Shares -/

/-- The lengths of shares are the quotient or one more, and the longer ones come first. -/
theorem pairwise_shareLengths (rows parts : Nat) :
    (shareLengths rows parts).Pairwise fun length later => later ≤ length := by
  rw [shareLengths, List.pairwise_append]
  refine ⟨List.pairwise_replicate_of_refl .., List.pairwise_replicate_of_refl .., ?_⟩
  intro length hlength later hlater
  rw [List.eq_of_mem_replicate hlength, List.eq_of_mem_replicate hlater]
  exact Nat.le_succ _

theorem bounds_of_mem_shareLengths {rows parts length : Nat}
    (h : length ∈ shareLengths rows parts) : rows / parts ≤ length ∧ length ≤ rows / parts + 1 := by
  rcases List.mem_append.mp h with h | h
  · rw [List.eq_of_mem_replicate h]
    omega
  · rw [List.eq_of_mem_replicate h]
    omega

/-- The shares hold every row in one of them. -/
theorem exists_share (rows parts : Nat) {row : Nat} (h : row < rows) :
    ∃ (i : Nat) (range : RowRange), (rowShares rows parts)[i]? = some range ∧ row ∈ range := by
  have hrow : row ∈ (rowShares rows parts).flatMap RowRange.rows := by
    rw [rowShares_rows]
    exact List.mem_range.mpr h
  obtain ⟨range, hrange, hrow⟩ := List.mem_flatMap.mp hrow
  obtain ⟨i, hi⟩ := List.mem_iff_getElem?.mp hrange
  exact ⟨i, range, hi, RowRange.mem_rows.mp hrow⟩

/-- The rows are divided into as many fair shares as there are parts, and into one for no parts. -/
theorem fairShares_rowShares (rows parts : Nat) :
    (rowShares rows parts).length = max parts 1 ∧ FairShares rows (rowShares rows parts) := by
  have hparts : 0 < max parts 1 := Nat.lt_of_lt_of_le Nat.one_pos (Nat.le_max_right parts 1)
  have hsum := sum_shareLengths hparts rows
  have hlengths : (rowShares rows parts).map RowRange.length = shareLengths rows (max parts 1) :=
    map_length_consecutive 0 _
  have hbounds : ∀ range ∈ rowShares rows parts, rows / max parts 1 ≤ range.length ∧
      range.length ≤ rows / max parts 1 + 1 := fun range hrange =>
    bounds_of_mem_shareLengths (hlengths ▸ List.mem_map_of_mem hrange)
  refine ⟨?_, ?_, ?_, ?_, ?_, ?_⟩
  · rw [rowShares, length_consecutive, length_shareLengths hparts]
  · exact partition_consecutive (Nat.le_of_eq hsum)
  · intro range hlast
    rw [stop_of_getLast?_consecutive hlast, hsum, Nat.zero_add]
  · intro row hrow
    obtain ⟨i, range, hi, hmem⟩ := exists_share rows parts hrow
    refine ⟨i, ⟨range, hi, hmem⟩, ?_⟩
    rintro j ⟨other, hj, hother⟩
    exact eq_of_mem_consecutive hj hi hother hmem
  · have hsorted := pairwise_shareLengths rows (max parts 1)
    rwa [← hlengths, List.pairwise_map] at hsorted
  · intro range hrange other hother
    exact (hbounds range hrange).2.trans (Nat.succ_le_succ (hbounds other hother).1)

/-- Seven rows for three workers. -/
example : rowShares 7 3 = [⟨0, 3⟩, ⟨3, 5⟩, ⟨5, 7⟩] := by decide

end ZoneSkims
