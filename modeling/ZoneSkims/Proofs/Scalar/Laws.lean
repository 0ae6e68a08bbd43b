import ZoneSkims.Scalar

/-!
# Laws of scalars

Proofs about calculations use few laws of their scalars, and all of them survive rounding: numbers
are totally preordered, infinity is the greatest, adding a finite scalar keeps the order, and what
is not negative stays so. Associativity, cancellation and exactness are not among them.

* `LawfulScalar`: the laws.
* `Scalar.isFinite_of_between`: what lies between finite scalars is finite.
* `Scalar.max_zero_of_le`, `Scalar.max_zero_of_not_le`: the larger of a scalar and 0.
* `Scalar.pairwise_mergeSort`: sorting by the total order sorts by `≤`.
-/

namespace ZoneSkims

namespace Scalar

/-- The scalar is defined, perhaps infinite. -/
def IsNumber {α : Type} [Scalar α] (a : α) : Prop := isNaN a = false

theorem isPositive_iff {α : Type} [Scalar α] {a : α} :
    isPositive a = true ↔ isFinite a = true ∧ 0 < a := by
  simp [isPositive]

theorem isNonnegative_iff {α : Type} [Scalar α] {a : α} :
    isNonnegative a = true ↔ isFinite a = true ∧ 0 ≤ a := by
  simp [isNonnegative]

end Scalar

open Scalar in
/-- Scalars whose comparison, addition and total order keep the laws of rounded arithmetic. -/
class LawfulScalar (α : Type) [Scalar α] : Prop where
  isNumber_of_le {a b : α} : a ≤ b → IsNumber a ∧ IsNumber b
  le_total {a b : α} : IsNumber a → IsNumber b → a ≤ b ∨ b ≤ a
  le_trans {a b c : α} : a ≤ b → b ≤ c → a ≤ c
  lt_iff {a b : α} : a < b ↔ a ≤ b ∧ ¬ b ≤ a
  isFinite_iff {a : α} : isFinite a = true ↔ -infinity < a ∧ a < infinity
  isFinite_zero : isFinite (0 : α) = true
  le_infinity {a : α} : IsNumber a → a ≤ infinity
  neg_infinity_le {a : α} : IsNumber a → -infinity ≤ a
  /-- Rounded addition keeps the order. -/
  add_le_add_right {a b c : α} : isFinite c = true → a ≤ b → a + c ≤ b + c
  add_comm (a b : α) : a + b = b + a
  /-- Adding what is not negative never lowers a number, if the sum is defined. -/
  le_add {a c : α} : IsNumber (a + c) → ¬ c < 0 → a ≤ a + c
  /-- A difference is defined when the subtrahend is finite. -/
  isNumber_sub {a b : α} : IsNumber a → isFinite b = true → IsNumber (a - b)
  not_mul_lt_zero {a b : α} : ¬ a < 0 → ¬ b < 0 → ¬ a * b < 0
  not_div_lt_zero {a b : α} : ¬ a < 0 → 0 < b → ¬ a / b < 0
  not_sqrt_lt_zero (a : α) : ¬ sqrt a < 0
  order_transCmp : Std.TransCmp (order : α → α → Ordering)
  /-- The total order refines the comparison. -/
  not_lt_of_orderedLe {a b : α} : orderedLe a b = true → ¬ b < a

namespace Scalar

variable {α : Type} [Scalar α] [LawfulScalar α] {a b c d : α}

/-! ## Order -/

protected theorem le_refl (h : IsNumber a) : a ≤ a :=
  (LawfulScalar.le_total h h).elim id id

protected theorem le_trans (h : a ≤ b) (h' : b ≤ c) : a ≤ c :=
  LawfulScalar.le_trans h h'

protected theorem le_of_lt (h : a < b) : a ≤ b := (LawfulScalar.lt_iff.mp h).1

protected theorem not_lt_of_le (h : a ≤ b) : ¬ b < a :=
  fun h' => (LawfulScalar.lt_iff.mp h').2 h

protected theorem lt_irrefl (a : α) : ¬ a < a :=
  fun h => Scalar.not_lt_of_le (Scalar.le_of_lt h) h

protected theorem isNumber_left (h : a ≤ b) : IsNumber a := (LawfulScalar.isNumber_of_le h).1

protected theorem isNumber_right (h : a ≤ b) : IsNumber b := (LawfulScalar.isNumber_of_le h).2

protected theorem le_of_not_lt (ha : IsNumber a) (hb : IsNumber b) (h : ¬ a < b) : b ≤ a := by
  rcases LawfulScalar.le_total ha hb with hle | hle
  · by_cases hba : b ≤ a
    · exact hba
    · exact absurd (LawfulScalar.lt_iff.mpr ⟨hle, hba⟩) h
  · exact hle

protected theorem lt_of_not_le (ha : IsNumber a) (hb : IsNumber b) (h : ¬ a ≤ b) : b < a :=
  LawfulScalar.lt_iff.mpr ⟨(LawfulScalar.le_total ha hb).resolve_left h, h⟩

protected theorem lt_of_le_of_lt (h : a ≤ b) (h' : b < c) : a < c := by
  refine LawfulScalar.lt_iff.mpr ⟨Scalar.le_trans h (Scalar.le_of_lt h'), fun hca => ?_⟩
  exact (LawfulScalar.lt_iff.mp h').2 (Scalar.le_trans hca h)

protected theorem lt_of_lt_of_le (h : a < b) (h' : b ≤ c) : a < c := by
  refine LawfulScalar.lt_iff.mpr ⟨Scalar.le_trans (Scalar.le_of_lt h) h', fun hca => ?_⟩
  exact (LawfulScalar.lt_iff.mp h).2 (Scalar.le_trans h' hca)

protected theorem lt_trans (h : a < b) (h' : b < c) : a < c :=
  Scalar.lt_of_lt_of_le h (Scalar.le_of_lt h')

/-! ## Finite scalars -/

theorem isNumber_of_isFinite (h : isFinite a = true) : IsNumber a :=
  Scalar.isNumber_right (Scalar.le_of_lt (LawfulScalar.isFinite_iff.mp h).1)

theorem lt_infinity_of_isFinite (h : isFinite a = true) : a < infinity :=
  (LawfulScalar.isFinite_iff.mp h).2

/-- What lies between finite scalars is finite. -/
theorem isFinite_of_between (ha : isFinite a = true) (hab : a ≤ b) (hbc : b ≤ c)
    (hc : isFinite c = true) : isFinite b = true :=
  LawfulScalar.isFinite_iff.mpr
    ⟨Scalar.lt_of_lt_of_le (LawfulScalar.isFinite_iff.mp ha).1 hab,
      Scalar.lt_of_le_of_lt hbc (LawfulScalar.isFinite_iff.mp hc).2⟩

theorem isFinite_of_le_of_lt_infinity (ha : isFinite a = true) (hab : a ≤ b)
    (hb : b < infinity) : isFinite b = true :=
  LawfulScalar.isFinite_iff.mpr ⟨Scalar.lt_of_lt_of_le (LawfulScalar.isFinite_iff.mp ha).1 hab, hb⟩

theorem isNumber_infinity : IsNumber (infinity : α) :=
  Scalar.isNumber_right (Scalar.le_of_lt (lt_infinity_of_isFinite LawfulScalar.isFinite_zero))

/-- Nothing is greater than infinity, not even what is undefined. -/
theorem not_infinity_lt (a : α) : ¬ infinity < a := fun h =>
  Scalar.not_lt_of_le (LawfulScalar.le_infinity (Scalar.isNumber_right (Scalar.le_of_lt h))) h

/-! ## Sums -/

theorem add_le_add_left (hc : isFinite c = true) (h : a ≤ b) : c + a ≤ c + b := by
  rw [LawfulScalar.add_comm c a, LawfulScalar.add_comm c b]
  exact LawfulScalar.add_le_add_right hc h

/-- Adding a finite scalar that is not negative never lowers a number. -/
theorem le_add_of_isFinite (ha : IsNumber a) (hc : isFinite c = true) (h : 0 ≤ c) : a ≤ a + c :=
  LawfulScalar.le_add (Scalar.isNumber_left (LawfulScalar.add_le_add_right hc (Scalar.le_refl ha)))
    (Scalar.not_lt_of_le h)

theorem isNumber_add (ha : IsNumber a) (hc : isFinite c = true) : IsNumber (a + c) :=
  Scalar.isNumber_left (LawfulScalar.add_le_add_right hc (Scalar.le_refl ha))

/-! ## The larger of a scalar and 0 -/

theorem max_zero_of_le (h : 0 ≤ a) : max a 0 = a := by
  have hnumber : isNaN a = false := Scalar.isNumber_right h
  rw [max, hnumber, if_neg Bool.false_ne_true, if_neg (Scalar.not_lt_of_le h)]

theorem max_zero_of_not_le (h : ¬ 0 ≤ a) : max a 0 = 0 := by
  by_cases hnan : isNaN a = true
  · rw [max, if_pos hnan]
  · have hnumber : IsNumber a := eq_false_of_ne_true hnan
    have hlt : a < 0 :=
      Scalar.lt_of_not_le (isNumber_of_isFinite LawfulScalar.isFinite_zero) hnumber h
    rw [max, if_neg hnan, if_pos hlt]

theorem le_max_zero (h : IsNumber a) : a ≤ max a 0 := by
  by_cases h0 : 0 ≤ a
  · rw [max_zero_of_le h0]
    exact Scalar.le_refl h
  · rw [max_zero_of_not_le h0]
    exact Scalar.le_of_lt (Scalar.lt_of_not_le (isNumber_of_isFinite LawfulScalar.isFinite_zero) h h0)

theorem max_zero_le_max_zero (h : a ≤ b) : max a 0 ≤ max b 0 := by
  by_cases h0 : 0 ≤ a
  · rw [max_zero_of_le h0]
    exact Scalar.le_trans h (le_max_zero (Scalar.isNumber_right h))
  · rw [max_zero_of_not_le h0]
    by_cases h0' : 0 ≤ b
    · rwa [max_zero_of_le h0']
    · rw [max_zero_of_not_le h0']
      exact Scalar.le_refl (isNumber_of_isFinite LawfulScalar.isFinite_zero)

/-! ## Sorting -/

instance : Std.TransCmp (order : α → α → Ordering) := LawfulScalar.order_transCmp

theorem orderedLe_total (a b : α) : (orderedLe a b || orderedLe b a) = true := by
  have hswap : order b a = (order a b).swap := Std.OrientedCmp.eq_swap
  rw [orderedLe, orderedLe, hswap]
  cases order a b <;> rfl

/-- Sorting by the total order sorts by `≤`. -/
theorem pairwise_mergeSort {xs : List α} (h : ∀ x ∈ xs, IsNumber x) :
    (xs.mergeSort orderedLe).Pairwise (· ≤ ·) := by
  have hsorted : (xs.mergeSort orderedLe).Pairwise fun x y => orderedLe x y = true :=
    @List.pairwise_mergeSort α orderedLe (fun _ _ _ => Std.TransCmp.isLE_trans)
      orderedLe_total xs
  refine hsorted.imp_of_mem fun {x y} hx hy hxy => ?_
  rw [List.mem_mergeSort] at hx hy
  exact Scalar.le_of_not_lt (h y hy) (h x hx) (LawfulScalar.not_lt_of_orderedLe hxy)

end Scalar

end ZoneSkims
