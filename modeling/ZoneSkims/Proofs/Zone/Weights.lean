import ZoneSkims.Proofs.Scalar.Product
import ZoneSkims.Zone.Sampling

/-!
# Weights on a line

The weights of a zone lie on a line one after the other, and a draw picks the weight at a place of the
line. Rounded sums of weights that are not negative ascend, and a weight of 0 leaves the sum as it
is, so every place before the total is on a positive weight. Nothing else is asked of the sums, which
may be rounded in any way that keeps the order.

* `Candidate.usableWeight_pos_iff`: which weights count.
* `totalWeight`: their sum.
* `WeightScale.exists_located`: a place on the line is on a positive weight.
-/

namespace ZoneSkims

open Scalar

variable {α : Type} [Scalar α]

/-! ## Weights -/

section

variable [LawfulScalar α]

theorem Candidate.isNonnegative_usableWeight (location : Candidate α) :
    isNonnegative location.usableWeight = true := by
  have hzero : isNonnegative (0 : α) = true :=
    isNonnegative_iff.mpr ⟨LawfulScalar.isFinite_zero,
      Scalar.le_refl (isNumber_of_isFinite LawfulScalar.isFinite_zero)⟩
  rw [usableWeight]
  split_ifs with hfinite
  · by_cases h0 : 0 ≤ location.weight
    · rw [max_zero_of_le h0]
      exact isNonnegative_iff.mpr ⟨hfinite, h0⟩
    · rw [max_zero_of_not_le h0]
      exact hzero
  · exact hzero

/-- The weights that count are the finite positive ones. -/
theorem Candidate.usableWeight_pos_iff {location : Candidate α} :
    0 < location.usableWeight ↔ isPositive location.weight = true := by
  have hirrefl := Scalar.lt_irrefl (0 : α)
  rw [usableWeight, isPositive]
  split_ifs with hfinite
  · by_cases h0 : 0 ≤ location.weight
    · simp [max_zero_of_le h0, hfinite]
    · have hnot : ¬ 0 < location.weight := fun h => h0 (Scalar.le_of_lt h)
      simp [max_zero_of_not_le h0, hirrefl, hnot]
  · simp [hfinite, hirrefl]

theorem isNonnegative_of_mem_usableWeights (candidates : List (Candidate α)) :
    ∀ w ∈ candidates.map Candidate.usableWeight, isNonnegative w = true := by
  intro w hw
  obtain ⟨c, -, rfl⟩ := List.mem_map.mp hw
  exact c.isNonnegative_usableWeight

/-- The weights of all candidates that count, added up in their order. -/
def totalWeight : List (Candidate α) → α
  | [] => 0
  | c :: cs => cs.foldl (fun total c => total + c.usableWeight) c.usableWeight

/-! ## Places on the line of weights -/

namespace WeightScale

variable {place t w : α} {ws : List α}

omit [LawfulScalar α] in
theorem total_extend (t : α) (ws : List α) : (extend t ws).total = ws.foldl (· + ·) t := by
  induction ws generalizing t with
  | nil => rfl
  | cons w ws ih => exact ih (t + w)

omit [LawfulScalar α] in
theorem total_ofWeights (candidates : List (Candidate α)) :
    (ofWeights (candidates.map Candidate.usableWeight)).total = totalWeight candidates := by
  cases candidates with
  | nil => rfl
  | cons c cs => rw [List.map_cons, ofWeights, total_extend, totalWeight, List.foldl_map]

theorem le_add_weight (ht : 0 ≤ t) (hw : isNonnegative w = true) : t ≤ t + w := by
  obtain ⟨hfinite, h0⟩ := isNonnegative_iff.mp hw
  exact le_add_of_isFinite (Scalar.isNumber_right ht) hfinite h0

theorem le_total (ht : 0 ≤ t) (hws : ∀ w ∈ ws, isNonnegative w = true) :
    t ≤ (extend t ws).total := by
  induction ws generalizing t with
  | nil => exact Scalar.le_refl (Scalar.isNumber_right ht)
  | cons w ws ih =>
    have hstep := le_add_weight ht (hws w List.mem_cons_self)
    have hrest := ih (Scalar.le_trans ht hstep) fun v hv => hws v (List.mem_cons_of_mem w hv)
    exact Scalar.le_trans hstep hrest

theorem le_of_mem_limits (ht : 0 ≤ t) (hws : ∀ w ∈ ws, isNonnegative w = true) :
    ∀ limit ∈ (extend t ws).limits, t ≤ limit := by
  induction ws generalizing t with
  | nil => simp [extend]
  | cons w ws ih =>
    have hstep := le_add_weight ht (hws w List.mem_cons_self)
    have hrest := ih (Scalar.le_trans ht hstep) fun v hv => hws v (List.mem_cons_of_mem w hv)
    intro limit hlimit
    rcases List.mem_cons.mp hlimit with rfl | hlimit
    · exact Scalar.le_refl (Scalar.isNumber_right ht)
    · exact Scalar.le_trans hstep (hrest limit hlimit)

/-- A place before the first limit belongs to the first weight. -/
theorem locate_eq_zero (ht : 0 ≤ t) (hws : ∀ w ∈ ws, isNonnegative w = true)
    (hplace : ¬ t ≤ place) : (extend t ws).locate place = 0 := by
  rw [locate, List.countP_eq_zero]
  intro limit hlimit
  have hle := le_of_mem_limits ht hws limit hlimit
  simpa using fun h => hplace (Scalar.le_trans hle h)

/-- A place on the line belongs to a positive weight. The limit `t` is the sum up to `w`, so a place
before it is on `w` only if `w` is positive. -/
theorem exists_located [LawfulNeutral α] (ht : 0 ≤ t) (hws : ∀ w ∈ ws, isNonnegative w = true)
    (hplace : place < (extend t ws).total) (hw : place < t → 0 < w) :
    ∃ v, (w :: ws)[(extend t ws).locate place]? = some v ∧ 0 < v := by
  induction ws generalizing t w with
  | nil => exact ⟨w, rfl, hw hplace⟩
  | cons v ws ih =>
    have hv := hws v List.mem_cons_self
    have hstep := le_add_weight ht hv
    have hrest : ∀ u ∈ ws, isNonnegative u = true := fun u hu => hws u (List.mem_cons_of_mem v hu)
    by_cases hle : t ≤ place
    · have hnext : place < t + v → 0 < v := by
        intro hlt
        by_contra hpos
        have hv0 : v ≤ 0 := Scalar.le_of_not_lt
          (isNumber_of_isFinite LawfulScalar.isFinite_zero)
          (isNumber_of_isFinite (isNonnegative_iff.mp hv).1) hpos
        have hfinite : isFinite t = true := by
          refine isFinite_of_le_of_lt_infinity LawfulScalar.isFinite_zero ht ?_
          exact Scalar.lt_of_le_of_lt hle (Scalar.lt_of_lt_of_le hplace (LawfulScalar.le_infinity
            (Scalar.isNumber_right (Scalar.le_of_lt hplace))))
        have hsame : t + v ≤ t :=
          Scalar.le_trans (add_le_add_left hfinite hv0) (LawfulNeutral.add_zero_le hfinite)
        exact Scalar.not_lt_of_le (Scalar.le_trans hsame hle) hlt
      have hcount : (extend t (v :: ws)).locate place = (extend (t + v) ws).locate place + 1 := by
        simp [locate, extend, hle]
      obtain ⟨u, hu, hpos⟩ := ih (Scalar.le_trans ht hstep) hrest hplace hnext
      exact ⟨u, by rw [hcount]; exact hu, hpos⟩
    · have hlt : place < t := Scalar.lt_of_not_le
        (Scalar.isNumber_right ht) (Scalar.isNumber_left (Scalar.le_of_lt hplace)) hle
      rw [locate_eq_zero ht hws hle]
      exact ⟨w, rfl, hw hlt⟩

/-- Every weight is at most the total. -/
theorem le_total_of_mem (ht : 0 ≤ t) (hws : ∀ w ∈ ws, isNonnegative w = true) (hw : w ∈ ws) :
    w ≤ (extend t ws).total := by
  induction ws generalizing t with
  | nil => cases hw
  | cons v ws ih =>
    have hv := hws v List.mem_cons_self
    have hstep := Scalar.le_trans ht (le_add_weight ht hv)
    have hrest : ∀ u ∈ ws, isNonnegative u = true := fun u hu => hws u (List.mem_cons_of_mem v hu)
    have hzero : v ≤ 0 + v := by
      rw [LawfulScalar.add_comm]
      exact le_add_of_isFinite (Scalar.isNumber_right (isNonnegative_iff.mp hv).2)
        LawfulScalar.isFinite_zero
        (Scalar.le_refl (isNumber_of_isFinite LawfulScalar.isFinite_zero))
    rcases List.mem_cons.mp hw with rfl | hw
    · have htotal : t + w ≤ (extend t (w :: ws)).total := le_total hstep hrest
      have hle : 0 + w ≤ t + w := LawfulScalar.add_le_add_right (isNonnegative_iff.mp hv).1 ht
      exact Scalar.le_trans (Scalar.le_trans hzero hle) htotal
    · exact ih hstep hrest hw

end WeightScale

/-! ## Totals -/

theorem zero_le_totalWeight (candidates : List (Candidate α)) : 0 ≤ totalWeight candidates := by
  cases candidates with
  | nil => exact Scalar.le_refl (isNumber_of_isFinite LawfulScalar.isFinite_zero)
  | cons first rest =>
    have h0 := (isNonnegative_iff.mp first.isNonnegative_usableWeight).2
    rw [← WeightScale.total_ofWeights]
    exact Scalar.le_trans h0
      (WeightScale.le_total h0 (isNonnegative_of_mem_usableWeights rest))

theorem isPositive_totalWeight {candidates : List (Candidate α)}
    (h : ∃ c ∈ candidates, isPositive c.weight = true) : 0 < totalWeight candidates := by
  obtain ⟨c, hc, hpos⟩ := h
  rw [← Candidate.usableWeight_pos_iff] at hpos
  refine Scalar.lt_of_lt_of_le hpos ?_
  cases candidates with
  | nil => cases hc
  | cons first rest =>
    have h0 := (isNonnegative_iff.mp first.isNonnegative_usableWeight).2
    have hrest := isNonnegative_of_mem_usableWeights rest
    rw [← WeightScale.total_ofWeights, List.map_cons, WeightScale.ofWeights]
    rcases List.mem_cons.mp hc with rfl | hc
    · exact WeightScale.le_total h0 hrest
    · exact WeightScale.le_total_of_mem h0 hrest (List.mem_map_of_mem hc)

end

end ZoneSkims
