import Mathlib.Algebra.Order.Ring.Nat
import ZoneSkims.Text.Digits

/-!
# Digits and the numbers they write

A run of digits is read in one pass, the value so far times ten plus the next digit. The value alone
does not give the digits back, since zeros may lead, but value and length do. A text that fills up
to two digits with a zero, and has no other zero in front, has a length that the value tells.

* `WritesNumber`: one or more digits and the number that they write.
* `number?_eq_some_iff`: what is read.
* `eq_of_value_eq`: digits by their length and their value.
* `Padded`: two digits, or more and no zero in front.
-/

namespace ZoneSkims

/-- One or more decimal digits that write `n`. -/
structure WritesNumber (digits : List Char) (n : Nat) : Prop where
  ne_nil : digits ≠ []
  isDigit : ∀ c ∈ digits, c.isDigit = true
  value : Nat.ofDigitChars 10 digits 0 = n

/-! ## Reading -/

theorem foldlM_digit?_eq_some_iff {digits : List Char} {start n : Nat} :
    digits.foldlM (fun n c => (10 * n + ·) <$> digit? c) start = some n ↔
      (∀ c ∈ digits, c.isDigit = true) ∧ Nat.ofDigitChars 10 digits start = n := by
  induction digits generalizing start with
  | nil => simp [Nat.ofDigitChars]
  | cons c digits ih =>
    rw [List.foldlM_cons, Nat.ofDigitChars_cons, List.forall_mem_cons, digit?]
    by_cases hc : c.isDigit = true
    · rw [if_pos hc, and_iff_right hc]
      exact ih
    · rw [if_neg hc]
      simp [hc]

theorem number?_eq_some_iff {digits : List Char} {n : Nat} :
    number? digits = some n ↔
      (∀ c ∈ digits, c.isDigit = true) ∧ Nat.ofDigitChars 10 digits 0 = n :=
  foldlM_digit?_eq_some_iff

theorem writesNumber_iff {digits : List Char} {n : Nat} :
    WritesNumber digits n ↔ digits ≠ [] ∧ number? digits = some n := by
  rw [number?_eq_some_iff]
  constructor
  · intro h
    exact ⟨h.ne_nil, h.isDigit, h.value⟩
  · rintro ⟨hne, hdigit, hvalue⟩
    exact ⟨hne, hdigit, hvalue⟩

/-! ## Values -/

theorem value_cons (c : Char) (digits : List Char) :
    Nat.ofDigitChars 10 (c :: digits) 0 =
      10 ^ digits.length * (c.toNat - '0'.toNat) + Nat.ofDigitChars 10 digits 0 := by
  rw [Nat.ofDigitChars_cons, Nat.ofDigitChars_eq_ofDigitChars_zero, Nat.mul_zero, Nat.zero_add]

theorem digit_lt_ten {c : Char} (h : c.isDigit = true) : c.toNat - '0'.toNat < 10 := by
  have hbounds := Char.isDigit_iff_toNat.mp h
  simp only [Char.reduceToNat] at hbounds ⊢
  omega

theorem value_lt {digits : List Char} (h : ∀ c ∈ digits, c.isDigit = true) :
    Nat.ofDigitChars 10 digits 0 < 10 ^ digits.length := by
  induction digits with
  | nil => simp [Nat.ofDigitChars]
  | cons c digits ih =>
    obtain ⟨hc, hdigits⟩ := List.forall_mem_cons.mp h
    have hrest := ih hdigits
    calc Nat.ofDigitChars 10 (c :: digits) 0
        = 10 ^ digits.length * (c.toNat - '0'.toNat) + Nat.ofDigitChars 10 digits 0 :=
          value_cons c digits
      _ < 10 ^ digits.length * (c.toNat - '0'.toNat + 1) := by
          rw [Nat.mul_add, Nat.mul_one]
          omega
      _ ≤ 10 ^ digits.length * 10 := Nat.mul_le_mul_left _ (digit_lt_ten hc)
      _ = 10 ^ (c :: digits).length := rfl

/-- A first digit other than 0 counts. -/
theorem le_value {c : Char} {digits : List Char} (hc : c.isDigit = true) (h : c ≠ '0') :
    10 ^ digits.length ≤ Nat.ofDigitChars 10 (c :: digits) 0 := by
  have hpos : 0 < c.toNat - '0'.toNat := by
    have hbounds := Char.isDigit_iff_toNat.mp hc
    have hne : c.toNat ≠ '0'.toNat := fun heq => h (Char.toNat_inj.mp heq)
    omega
  rw [value_cons]
  exact (Nat.le_mul_of_pos_right _ hpos).trans (Nat.le_add_right _ _)

/-- Digits of one length that write the same number are the same. -/
theorem eq_of_value_eq {digits other : List Char} (h : ∀ c ∈ digits, c.isDigit = true)
    (hother : ∀ c ∈ other, c.isDigit = true) (hlength : digits.length = other.length)
    (hvalue : Nat.ofDigitChars 10 digits 0 = Nat.ofDigitChars 10 other 0) : digits = other := by
  induction digits generalizing other with
  | nil => exact (List.length_eq_zero_iff.mp hlength.symm).symm
  | cons c digits ih =>
    obtain ⟨d, other, rfl⟩ := List.exists_cons_of_length_eq_add_one hlength.symm
    obtain ⟨hc, hdigits⟩ := List.forall_mem_cons.mp h
    obtain ⟨hd, hothers⟩ := List.forall_mem_cons.mp hother
    have hrest : digits.length = other.length := Nat.succ.inj hlength
    rw [value_cons, value_cons, hrest] at hvalue
    have hlt := value_lt hdigits
    have hlt' := value_lt hothers
    rw [hrest] at hlt
    -- the first digit is the quotient by the power, and the others the remainder
    have hfirst := congrArg (· / 10 ^ other.length) hvalue
    have hothersValue := congrArg (· % 10 ^ other.length) hvalue
    have hpow : 0 < 10 ^ other.length := Nat.pow_pos (by decide)
    simp only [Nat.mul_add_div hpow, Nat.div_eq_of_lt hlt, Nat.div_eq_of_lt hlt',
      Nat.add_zero] at hfirst
    simp only [Nat.mul_add_mod, Nat.mod_eq_of_lt hlt, Nat.mod_eq_of_lt hlt'] at hothersValue
    have hsame : c = d := by
      have hbounds := Char.isDigit_iff_toNat.mp hc
      have hbounds' := Char.isDigit_iff_toNat.mp hd
      exact Char.toNat_inj.mp (by omega)
    rw [hsame, ih hdigits hothers hrest hothersValue]

/-! ## Padding to two digits -/

theorem isDigit_of_mem_toDigits {n : Nat} {c : Char} (h : c ∈ Nat.toDigits 10 n) :
    c.isDigit = true :=
  Nat.isDigit_of_mem_toDigits (by decide) (by decide) h

/-- At least two digits, and no zero in front of more than two. -/
structure Padded (digits : List Char) : Prop where
  isDigit : ∀ c ∈ digits, c.isDigit = true
  two_le : 2 ≤ digits.length
  leading : digits.length = 2 ∨ digits.head? ≠ some '0'

namespace Padded

variable {digits other : List Char}

theorem length_le (h : Padded digits) (hother : Padded other)
    (hvalue : Nat.ofDigitChars 10 digits 0 = Nat.ofDigitChars 10 other 0) :
    digits.length ≤ other.length := by
  by_contra hlong
  have htwo := hother.two_le
  have hhead := h.leading.resolve_left (by omega)
  have hdigit := h.isDigit
  cases digits with
  | nil => simp at hlong
  | cons c digits =>
    have hlow : 10 ^ digits.length ≤ Nat.ofDigitChars 10 (c :: digits) 0 :=
      le_value (hdigit c List.mem_cons_self) (by simpa using hhead)
    have hhigh := value_lt hother.isDigit
    have hpow : 10 ^ other.length ≤ 10 ^ digits.length :=
      Nat.pow_le_pow_right (by decide) (Nat.lt_succ_iff.mp (Nat.not_le.mp hlong))
    omega

/-- The value tells the digits. -/
theorem eq_of_value (h : Padded digits) (hother : Padded other)
    (hvalue : Nat.ofDigitChars 10 digits 0 = Nat.ofDigitChars 10 other 0) : digits = other :=
  eq_of_value_eq h.isDigit hother.isDigit
    (Nat.le_antisymm (h.length_le hother hvalue) (hother.length_le h hvalue.symm)) hvalue

/-- A number has no zero in front. -/
theorem toDigits {n : Nat} (h : 10 ≤ n) : Padded (Nat.toDigits 10 n) := by
  have hlong {k : Nat} (hk : 0 < k) : (Nat.toDigits 10 n).length ≤ k ↔ n < 10 ^ k :=
    Nat.length_toDigits_le_iff (by decide) hk
  have htwo : 2 ≤ (Nat.toDigits 10 n).length := by
    have hone := hlong Nat.one_pos
    omega
  refine ⟨fun c hc => isDigit_of_mem_toDigits hc, htwo, .inr fun hhead => ?_⟩
  -- without its zero in front the number would be shorter than it is
  obtain ⟨digits, hcons⟩ := List.head?_eq_some_iff.mp hhead
  have hvalue : Nat.ofDigitChars 10 digits 0 = n := by
    rw [← Nat.ofDigitChars_ten_toDigits (n := n), hcons, value_cons, Nat.sub_self, Nat.mul_zero,
      Nat.zero_add]
  have hbound : n < 10 ^ digits.length := by
    rw [← hvalue]
    exact value_lt fun c hc => isDigit_of_mem_toDigits (hcons ▸ List.mem_cons_of_mem _ hc)
  have hlength : (Nat.toDigits 10 n).length = digits.length + 1 := congrArg List.length hcons
  have hshort := (hlong (by omega)).mpr hbound
  omega

/-- A digit is filled up with a zero. -/
theorem zero_cons {n : Nat} (h : n < 10) : Padded ('0' :: Nat.toDigits 10 n) := by
  have hlength : (Nat.toDigits 10 n).length = 1 := by rw [Nat.toDigits_of_lt_base h]; rfl
  have htwo : ('0' :: Nat.toDigits 10 n).length = 2 := congrArg (· + 1) hlength
  refine ⟨?_, htwo.ge, .inl htwo⟩
  exact List.forall_mem_cons.mpr ⟨rfl, fun c hc => isDigit_of_mem_toDigits hc⟩

end Padded

end ZoneSkims
