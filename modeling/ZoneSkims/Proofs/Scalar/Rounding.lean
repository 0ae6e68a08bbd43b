import Mathlib.Tactic.Linarith
import Mathlib.Tactic.Positivity
import Mathlib.Tactic.FieldSimp
import Mathlib.Tactic.Ring
import Mathlib.Data.Rat.Cast.Order
import Mathlib.Algebra.Order.Field.Basic
import Mathlib.Data.Rat.Floor
import Mathlib.Data.Nat.Log

/-!
# Rounding to significant bits

A binary format rounds a number of its units to so many significant bits, to the nearest and on a tie
to the even one. The units of a product or a quotient are a fraction, and those of a sum a whole
number. Here rounding is a function of fractions, and of whole numbers as a case of them, and the fact
that matters is that it keeps their order.

* `Represents`: the place of a rational between two mantissas, as the rounding bits hold it.
* `nearestWhole`: the nearest whole number, which the rounding bits give.
* `roundFraction`, `roundFraction_mono`: rounding to a number of significant bits keeps the order.
* `roundUnits`, `roundTo`: the same for whole numbers, where it gives a multiple of a power of two.
-/

namespace ZoneSkims

open Float.Model.UnpackedFloat

/-! ## Rounding bits -/

/-- The mantissa and the two bits behind it tell where `x` lies: above the mantissa, by how much
compared with a half, and whether on one of the two marks. -/
structure Represents (em : ExtendedMantissa) (x : ℚ) : Prop where
  mantissa_le : (em.mantissa : ℚ) ≤ x
  lt_succ : x < em.mantissa + 1
  roundBit : em.roundBit = true ↔ (em.mantissa : ℚ) + 1 / 2 ≤ x
  stickyBit : em.stickyBit = false ↔ x = em.mantissa ∨ x = em.mantissa + 1 / 2

theorem represents_exact (m : Nat) :
    Represents (ExtendedMantissa.ofMantissaAndAccuracy m .exact) m := by
  refine ⟨le_rfl, lt_add_one _, ?_, ?_⟩
  · simp only [ExtendedMantissa.ofMantissaAndAccuracy, Bool.false_eq_true, false_iff, not_le]
    linarith
  · simp [ExtendedMantissa.ofMantissaAndAccuracy]

namespace Represents

variable {em em' : ExtendedMantissa} {x y : ℚ}

theorem shiftRightOne (h : Represents em x) : Represents em.shiftRightOne (x / 2) := by
  obtain ⟨hle, hlt, hround, hsticky⟩ := h
  obtain ⟨q, hq⟩ : ∃ q, q = em.mantissa / 2 := ⟨_, rfl⟩
  have hmod : em.mantissa = 2 * q ∨ em.mantissa = 2 * q + 1 := by omega
  have hnew : em.shiftRightOne =
      ⟨q, em.mantissa % 2 != 0, em.roundBit || em.stickyBit⟩ := by rw [hq]; rfl
  rw [hnew]
  -- without both bits `x` is the mantissa itself
  have hexact : (em.roundBit || em.stickyBit) = false ↔ x = em.mantissa := by
    rw [Bool.or_eq_false_iff, hsticky, ← Bool.not_eq_true, hround]
    constructor
    · rintro ⟨hr, hx | hx⟩
      · exact hx
      · exact absurd hx.ge hr
    · rintro rfl
      exact ⟨by linarith, Or.inl rfl⟩
  rcases hmod with hm | hm
  · rw [hm] at hle hlt hexact
    push_cast at hle hlt hexact
    refine ⟨by dsimp only; linarith, by dsimp only; linarith, ?_, ?_⟩
    · have hbit : (em.mantissa % 2 != 0) = false := by simp [hm]
      simp only [hbit, Bool.false_eq_true, false_iff, not_le]
      linarith
    · have hnot : ¬ x / 2 = (q : ℚ) + 1 / 2 := by intro h; linarith
      simp only [hexact, hnot, or_false]
      constructor <;> intro h <;> linarith
  · rw [hm] at hle hlt hexact
    push_cast at hle hlt hexact
    refine ⟨by dsimp only; linarith, by dsimp only; linarith, ?_, ?_⟩
    · have hbit : (em.mantissa % 2 != 0) = true := by simp [hm]
      simp only [hbit, true_iff]
      linarith
    · have hnot : ¬ x / 2 = (q : ℚ) := by intro h; linarith
      simp only [hexact, hnot, false_or]
      constructor <;> intro h <;> linarith

theorem shiftRight (h : Represents em x) (k : Nat) : Represents (em >>> k) (x / 2 ^ k) := by
  change Represents (k.repeat ExtendedMantissa.shiftRightOne em) _
  induction k with
  | zero => simpa [Nat.repeat] using h
  | succ k ih =>
    rw [Nat.repeat, pow_succ, ← div_div]
    exact ih.shiftRightOne

theorem roundedMantissa_of_lt (h : Represents em x) (hx : x < em.mantissa + 1 / 2) :
    em.roundedMantissa = em.mantissa := by
  have hbit : em.roundBit = false := by
    rw [← Bool.not_eq_true, h.roundBit]
    linarith
  obtain ⟨m, r, s⟩ := em
  subst hbit
  cases s <;> rfl

theorem roundedMantissa_of_gt (h : Represents em x) (hx : (em.mantissa : ℚ) + 1 / 2 < x) :
    em.roundedMantissa = em.mantissa + 1 := by
  have hround : em.roundBit = true := h.roundBit.mpr hx.le
  have hsticky : em.stickyBit = true := by
    rw [← Bool.not_eq_false, h.stickyBit]
    rintro (hm | hm) <;> linarith
  obtain ⟨m, r, s⟩ := em
  subst hround
  subst hsticky
  rfl

theorem roundedMantissa_of_eq (h : Represents em x) (hx : x = em.mantissa + 1 / 2) :
    em.roundedMantissa = em.mantissa + em.mantissa % 2 := by
  have hround : em.roundBit = true := h.roundBit.mpr hx.ge
  have hsticky : em.stickyBit = false := h.stickyBit.mpr (Or.inr hx)
  obtain ⟨m, r, s⟩ := em
  subst hround
  subst hsticky
  rfl

theorem roundedMantissa_bounds (h : Represents em x) :
    em.mantissa ≤ em.roundedMantissa ∧ em.roundedMantissa ≤ em.mantissa + 1 := by
  rcases lt_trichotomy x (em.mantissa + 1 / 2) with hx | hx | hx
  · rw [h.roundedMantissa_of_lt hx]
    omega
  · rw [h.roundedMantissa_of_eq hx]
    omega
  · rw [h.roundedMantissa_of_gt hx]
    omega

/-- The greater of two numbers is not rounded to a lower mantissa. -/
theorem roundedMantissa_mono (h : Represents em x) (h' : Represents em' y) (hxy : x ≤ y) :
    em.roundedMantissa ≤ em'.roundedMantissa := by
  have hfloor : em.mantissa ≤ em'.mantissa := by
    have hlt : (em.mantissa : ℚ) < em'.mantissa + 1 := by
      linarith [h.mantissa_le, h'.lt_succ]
    exact_mod_cast Nat.lt_succ_iff.mp (by exact_mod_cast hlt)
  rcases hfloor.lt_or_eq with hlt | heq
  · have := h.roundedMantissa_bounds
    have := h'.roundedMantissa_bounds
    omega
  · rcases lt_trichotomy x (em.mantissa + 1 / 2) with hx | hx | hx
    · rw [h.roundedMantissa_of_lt hx, heq]
      exact h'.roundedMantissa_bounds.1
    · rw [h.roundedMantissa_of_eq hx]
      rcases (hx.symm.trans_le hxy).eq_or_lt with hy | hy
      · rw [h'.roundedMantissa_of_eq (by rw [← hy, heq]), heq]
      · rw [h'.roundedMantissa_of_gt (by rw [← heq]; exact hy)]
        omega
    · rw [h.roundedMantissa_of_gt hx, h'.roundedMantissa_of_gt (by rw [← heq]; linarith), heq]

theorem roundedMantissa_unique (h : Represents em x) (h' : Represents em' x) :
    em.roundedMantissa = em'.roundedMantissa :=
  Nat.le_antisymm (h.roundedMantissa_mono h' le_rfl) (h'.roundedMantissa_mono h le_rfl)

end Represents

/-! ## The nearest whole number -/

/-- The whole part of a fraction with the two bits behind it. -/
def extended (x : ℚ) : ExtendedMantissa where
  mantissa := ⌊x⌋₊
  roundBit := decide ((⌊x⌋₊ : ℚ) + 1 / 2 ≤ x)
  stickyBit := decide (¬ (x = ⌊x⌋₊ ∨ x = ⌊x⌋₊ + 1 / 2))

theorem represents_extended {x : ℚ} (h : 0 ≤ x) : Represents (extended x) x where
  mantissa_le := Nat.floor_le h
  lt_succ := Nat.lt_floor_add_one x
  roundBit := decide_eq_true_iff
  stickyBit := by rw [extended, decide_eq_false_iff_not, not_not]

/-- The whole number nearest to a fraction, and the even one of two that are equally near. -/
def nearestWhole (x : ℚ) : Nat := (extended x).roundedMantissa

theorem Represents.roundedMantissa_eq {em : ExtendedMantissa} {x : ℚ} (h : Represents em x) :
    em.roundedMantissa = nearestWhole x :=
  h.roundedMantissa_unique (represents_extended ((Nat.cast_nonneg _).trans h.mantissa_le))

theorem nearestWhole_mono {x y : ℚ} (hx : 0 ≤ x) (h : x ≤ y) : nearestWhole x ≤ nearestWhole y :=
  (represents_extended hx).roundedMantissa_mono (represents_extended (hx.trans h)) h

theorem nearestWhole_natCast (n : Nat) : nearestWhole n = n :=
  (represents_exact n).roundedMantissa_eq.symm.trans rfl

theorem nearestWhole_le {x : ℚ} {q : Nat} (hx : 0 ≤ x) (h : x ≤ q) : nearestWhole x ≤ q :=
  (nearestWhole_mono hx h).trans_eq (nearestWhole_natCast q)

theorem le_nearestWhole {x : ℚ} {q : Nat} (h : (q : ℚ) ≤ x) : q ≤ nearestWhole x :=
  (nearestWhole_natCast q).symm.trans_le (nearestWhole_mono (Nat.cast_nonneg q) h)

/-! ## Multiples of a power of two -/

/-- The nearest multiple of `2 ^ k`, as a multiple. -/
def nearestMultiple (k n : Nat) : Nat :=
  (ExtendedMantissa.ofMantissaAndAccuracy n .exact >>> k).roundedMantissa

/-- The nearest multiple of `2 ^ k`. -/
def roundTo (k n : Nat) : Nat := nearestMultiple k n * 2 ^ k

theorem represents_shift (k n : Nat) :
    Represents (ExtendedMantissa.ofMantissaAndAccuracy n .exact >>> k) ((n : ℚ) / 2 ^ k) :=
  (represents_exact n).shiftRight k

theorem nearestMultiple_eq (k n : Nat) : nearestMultiple k n = nearestWhole (n / 2 ^ k) :=
  (represents_shift k n).roundedMantissa_eq

theorem nearestMultiple_mul (k q : Nat) : nearestMultiple k (q * 2 ^ k) = q := by
  have hx : ((q * 2 ^ k : Nat) : ℚ) / 2 ^ k = q := by
    push_cast
    field_simp
  rw [nearestMultiple_eq, hx, nearestWhole_natCast]

/-! ## Significant bits -/

/-- The bits of the whole part behind the first `p + 1`. -/
def excess (p : Nat) (x : ℚ) : Nat := ⌊x⌋₊.log2 - p

/-- The fraction rounded to `p + 1` significant bits, or to a whole number if it has fewer. -/
def roundFraction (p : Nat) (x : ℚ) : Nat := nearestWhole (x / 2 ^ excess p x) * 2 ^ excess p x

/-- The bits after the first `p + 1` are the rounded ones. -/
theorem lt_two_pow_excess (p n : Nat) : n < 2 ^ (p + 1) * 2 ^ (n.log2 - p) := by
  rw [← pow_add]
  exact Nat.lt_log2_self.trans_le (Nat.pow_le_pow_right (by decide) (by omega))

theorem two_pow_excess_le {p n : Nat} (h : 0 < n.log2 - p) : 2 ^ p * 2 ^ (n.log2 - p) ≤ n := by
  have hn : n ≠ 0 := by
    rintro rfl
    simp at h
  rw [← pow_add, Nat.add_sub_cancel' (by omega)]
  exact Nat.log2_self_le hn

theorem nearestWhole_excess_le {p : Nat} {x : ℚ} (hx : 0 ≤ x) :
    nearestWhole (x / 2 ^ excess p x) ≤ 2 ^ (p + 1) := by
  apply nearestWhole_le (by positivity)
  rw [div_le_iff₀ (by positivity)]
  have hlt := (Nat.floor_lt hx).mp (lt_two_pow_excess p ⌊x⌋₊)
  rw [excess]
  exact_mod_cast hlt.le

theorem le_nearestWhole_excess {p : Nat} {x : ℚ} (hx : 0 ≤ x) (h : 0 < excess p x) :
    2 ^ p ≤ nearestWhole (x / 2 ^ excess p x) := by
  apply le_nearestWhole
  rw [le_div_iff₀ (by positivity)]
  have hle := (Nat.le_floor_iff hx).mp (two_pow_excess_le h)
  rw [excess]
  exact_mod_cast hle

/-- Rounding to significant bits keeps the order. -/
theorem roundFraction_mono {p : Nat} {x y : ℚ} (hx : 0 ≤ x) (h : x ≤ y) :
    roundFraction p x ≤ roundFraction p y := by
  have hexcess : excess p x ≤ excess p y := by
    have hfloor : ⌊x⌋₊ ≤ ⌊y⌋₊ := Nat.floor_mono h
    rw [excess, excess, Nat.log2_eq_log_two, Nat.log2_eq_log_two]
    exact Nat.sub_le_sub_right (Nat.log_mono_right hfloor) p
  rcases hexcess.eq_or_lt with heq | hlt
  · rw [roundFraction, roundFraction, heq]
    apply Nat.mul_le_mul_right
    apply nearestWhole_mono (by positivity)
    gcongr
  -- a power of two separates the two roundings
  · calc roundFraction p x
        ≤ 2 ^ (p + 1) * 2 ^ excess p x := Nat.mul_le_mul_right _ (nearestWhole_excess_le hx)
      _ ≤ 2 ^ p * 2 ^ excess p y := by
          rw [← pow_add, ← pow_add]
          exact Nat.pow_le_pow_right (by decide) (by omega)
      _ ≤ roundFraction p y :=
          Nat.mul_le_mul_right _ (le_nearestWhole_excess (hx.trans h) (by omega))

/-- The number rounded to `p + 1` significant bits. -/
def roundUnits (p n : Nat) : Nat := roundTo (n.log2 - p) n

theorem roundFraction_natCast (p n : Nat) : roundFraction p n = roundUnits p n := by
  rw [roundFraction, excess, roundUnits, roundTo, Nat.floor_natCast, nearestMultiple_eq]

theorem roundUnits_mono {p n n' : Nat} (h : n ≤ n') : roundUnits p n ≤ roundUnits p n' := by
  rw [← roundFraction_natCast, ← roundFraction_natCast]
  exact roundFraction_mono (Nat.cast_nonneg n) (Nat.cast_le.mpr h)

/-- A number with at most `p + 1` significant bits stays as it is. -/
theorem roundUnits_mul {p m j : Nat} (hm : m < 2 ^ (p + 1)) :
    roundUnits p (m * 2 ^ j) = m * 2 ^ j := by
  rcases Nat.eq_zero_or_pos m with rfl | hpos
  · simpa [roundUnits, roundTo] using nearestMultiple_mul (Nat.log2 0 - p) 0
  have hlog : (m * 2 ^ j).log2 - p ≤ j := by
    have hlt : (m * 2 ^ j).log2 < p + 1 + j := by
      rw [Nat.log2_lt (by positivity), pow_add]
      exact Nat.mul_lt_mul_of_pos_right hm (by positivity)
    omega
  obtain ⟨i, hi⟩ := Nat.exists_eq_add_of_le hlog
  rw [roundUnits, roundTo]
  generalize (m * 2 ^ j).log2 - p = k at hi
  have hsplit : m * 2 ^ j = m * 2 ^ i * 2 ^ k := by rw [hi, pow_add]; ring
  rw [hsplit, nearestMultiple_mul]

theorem roundUnits_zero (p : Nat) : roundUnits p 0 = 0 := by
  simpa using roundUnits_mul (p := p) (m := 0) (j := 0) (by positivity)

theorem roundFraction_zero (p : Nat) : roundFraction p 0 = 0 := by
  rw [← Nat.cast_zero, roundFraction_natCast, roundUnits_zero]

end ZoneSkims
