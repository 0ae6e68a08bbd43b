import ZoneSkims.Clock
import ZoneSkims.Proofs.Outcome
import ZoneSkims.Proofs.Scalar.Whole
import ZoneSkims.Proofs.Text.Blank
import ZoneSkims.Proofs.Text.Number

/-!
# Written times

A text is read as a time when it consists of two or three numbers between colons, and blanks around
them. Trimming and splitting give these parts back, because none of their characters is a blank or a
colon, and each part is read as the number that its digits write. In the other direction, a time
from midnight on is printed by its whole seconds, each part with at least two digits. Such digits
are determined by their number, and so a text with no other zeros in front is the one that is
printed for the time that it is read as.

Hours are numbers below 2 ^ 32. All seconds of such a day are far below the limit up to which whole
numbers are exact in double precision.

* `Clock.Component`, `Clock.Parts`, `Clock.Writes`: texts of times, and the seconds they stand for.
* `Clock.parseSeconds_eq_ok_iff`: what is read.
* `Clock.parseSeconds_secondsText`, `Clock.secondsText_of_canonical`: what is printed.
* `Clock.parse_roundTrip`: the main result.
-/

namespace ZoneSkims

namespace Clock

/-! ## Texts of times -/

/-- Digits after at most one plus sign, for a number below 2 ^ 32. -/
def Component (part : List Char) (n : Nat) : Prop :=
  ∃ sign digits, part = sign ++ digits ∧ (sign = [] ∨ sign = ['+']) ∧
    WritesNumber digits n ∧ n < 2 ^ 32

/-- Two or three components, and the seconds that they stand for. -/
inductive Parts : List (List Char) → Nat → Prop
  | short {h m : List Char} {hours minutes n : Nat} (hh : Component h hours)
      (hm : Component m minutes) (sixty : minutes < 60)
      (value : hours * 3600 + minutes * 60 = n) : Parts [h, m] n
  | long {h m s : List Char} {hours minutes seconds n : Nat} (hh : Component h hours)
      (hm : Component m minutes) (hs : Component s seconds) (sixty : minutes < 60)
      (sixty' : seconds < 60) (value : hours * 3600 + minutes * 60 + seconds = n) :
      Parts [h, m, s] n

/-- Parts between colons, with blanks around them all. -/
def Writes (text : String) (n : Nat) : Prop :=
  ∃ before parts after, text.toList = before ++ [':'].intercalate parts ++ after ∧
    (∀ c ∈ before, isBlank c = true) ∧ (∀ c ∈ after, isBlank c = true) ∧ Parts parts n

/-- Hours with at least two digits, and no zero in front of more than two. Two digits each for the
minutes and the seconds. -/
def Canonical (text : String) : Prop :=
  ∃ h m s, text.toList = [':'].intercalate [h, m, s] ∧ Padded h ∧ (Padded m ∧ m.length = 2) ∧
    Padded s ∧ s.length = 2

/-! ## Components -/

/-- The characters from the plus sign up to the last digit. Colons and blanks are not among them. -/
def IsClockChar (c : Char) : Prop := '+'.toNat ≤ c.toNat ∧ c.toNat < ':'.toNat

theorem isClockChar_of_isDigit {c : Char} (h : c.isDigit = true) : IsClockChar c := by
  have hbounds := Char.isDigit_iff_toNat.mp h
  simp only [IsClockChar, Char.reduceToNat] at hbounds ⊢
  omega

theorem Component.isClockChar {part : List Char} {n : Nat} (h : Component part n) :
    ∀ c ∈ part, IsClockChar c := by
  obtain ⟨sign, digits, rfl, hsign, hdigits, -⟩ := h
  refine List.forall_mem_append.mpr ⟨?_, fun c hc => isClockChar_of_isDigit (hdigits.isDigit c hc)⟩
  rcases hsign with rfl | rfl
  · simp
  · simp [IsClockChar]

/-- Without a sign, the digits write the number. -/
theorem Component.value_of_isDigit {part : List Char} {n : Nat} (h : Component part n)
    (hdigit : ∀ c ∈ part, c.isDigit = true) : Nat.ofDigitChars 10 part 0 = n := by
  obtain ⟨sign, digits, rfl, rfl | rfl, hdigits, -⟩ := h
  · exact hdigits.value
  · exact absurd (hdigit '+' List.mem_cons_self) (by decide)

theorem component?_eq_some_iff {part : List Char} {n : Nat} :
    component? part = some n ↔ Component part n := by
  unfold component?
  extract_lets digits
  have hcomponent : Component part n ↔ WritesNumber digits n ∧ n < 2 ^ 32 := by
    subst digits
    split
    · next rest =>
      constructor
      · rintro ⟨sign, digits, hpart, rfl | rfl, hdigits, hlt⟩
        · rw [List.nil_append] at hpart
          have hplus := hdigits.isDigit '+' (hpart ▸ List.mem_cons_self)
          exact absurd hplus (by decide)
        · obtain rfl : rest = digits := by simpa using hpart
          exact ⟨hdigits, hlt⟩
      · rintro ⟨hdigits, hlt⟩
        exact ⟨['+'], rest, rfl, .inr rfl, hdigits, hlt⟩
    · next hplus =>
      constructor
      · rintro ⟨sign, digits, hpart, rfl | rfl, hdigits, hlt⟩
        · obtain rfl : part = digits := hpart
          exact ⟨hdigits, hlt⟩
        · exact absurd hpart (hplus digits)
      · rintro ⟨hdigits, hlt⟩
        exact ⟨[], part, rfl, .inl rfl, hdigits, hlt⟩
  clear_value digits
  rw [hcomponent, writesNumber_iff]
  split_ifs with hnil
  · simp [hnil]
  · cases hnumber : number? digits with
    | none => simp
    | some k =>
      simp [hnil, UInt32.size]
      omega

theorem component_eq_ok_iff {text : String} {part : List Char} {n : Nat} :
    component text part = .ok n ↔ Component part n := by
  rw [← component?_eq_some_iff, component]
  cases component? part <;> simp

theorem total_eq_ok_iff {text : String} {hours minutes seconds n : Nat} :
    total text hours minutes seconds = .ok n ↔
      minutes < 60 ∧ seconds < 60 ∧ hours * 3600 + minutes * 60 + seconds = n := by
  rw [total]
  split_ifs with h
  · simp
    omega
  · simp
    omega

/-! ## Reading -/

theorem parseSeconds_eq_ok_iff_parts {text : String} {n : Nat} :
    parseSeconds text = .ok n ↔ Parts (splitAt ':' (trim text.toList)) n := by
  unfold parseSeconds
  split
  · next h m hsplit =>
    rw [hsplit]
    simp only [bind_eq_ok, component_eq_ok_iff, total_eq_ok_iff, Nat.add_zero]
    constructor
    · rintro ⟨hours, hh, minutes, hm, sixty, -, value⟩
      exact .short hh hm sixty value
    · intro hparts
      cases hparts with
      | short hh hm sixty value => exact ⟨_, hh, _, hm, sixty, by decide, value⟩
  · next h m s hsplit =>
    rw [hsplit]
    simp only [bind_eq_ok, component_eq_ok_iff, total_eq_ok_iff]
    constructor
    · rintro ⟨hours, hh, minutes, hm, seconds, hs, sixty, sixty', value⟩
      exact .long hh hm hs sixty sixty' value
    · intro hparts
      cases hparts with
      | long hh hm hs sixty sixty' value => exact ⟨_, hh, _, hm, _, hs, sixty, sixty', value⟩
  · next hshort hlong =>
    refine iff_of_false nofun fun hparts => ?_
    generalize splitAt ':' (trim text.toList) = parts at *
    cases hparts with
    | short => exact hshort _ _ rfl
    | long => exact hlong _ _ _ rfl

theorem Parts.ne_nil {parts : List (List Char)} {n : Nat} (h : Parts parts n) : parts ≠ [] := by
  cases h <;> exact List.cons_ne_nil _ _

theorem Parts.isClockChar {parts : List (List Char)} {n : Nat} (h : Parts parts n) :
    ∀ part ∈ parts, ∀ c ∈ part, IsClockChar c := by
  cases h with
  | short hh hm => simpa using ⟨hh.isClockChar, hm.isClockChar⟩
  | long hh hm hs => simpa using ⟨hh.isClockChar, hm.isClockChar, hs.isClockChar⟩

/-- The parts between colons come back from between blanks. -/
theorem splitAt_trim_between {before after : List Char} {parts : List (List Char)}
    (hbefore : ∀ c ∈ before, isBlank c = true) (hafter : ∀ c ∈ after, isBlank c = true)
    (hne : parts ≠ []) (h : ∀ part ∈ parts, ∀ c ∈ part, IsClockChar c) :
    splitAt ':' (trim (before ++ [':'].intercalate parts ++ after)) = parts := by
  have hblank : ∀ c ∈ [':'].intercalate parts, isBlank c = false := by
    intro c hc
    have hcode : '+'.toNat ≤ c.toNat ∧ c.toNat ≤ ':'.toNat := by
      rcases mem_intercalate hc with rfl | ⟨part, hpart, hmem⟩
      · decide
      · exact (h part hpart c hmem).imp_right Nat.le_of_lt
    exact isBlank_eq_false (le_trans (by decide) hcode.1) (hcode.2.trans (by decide))
  rw [trim_between hbefore hafter hblank]
  refine splitAt_intercalate hne fun part hpart hcolon => ?_
  exact absurd (h part hpart ':' hcolon).2 (Nat.lt_irrefl _)

/-- What is read is what is written, and nothing else is. -/
theorem parseSeconds_eq_ok_iff {text : String} {n : Nat} :
    parseSeconds text = .ok n ↔ Writes text n := by
  rw [parseSeconds_eq_ok_iff_parts]
  constructor
  · intro hparts
    obtain ⟨before, after, hsplit, hbefore, hafter⟩ := exists_trim text.toList
    refine ⟨before, _, after, ?_, hbefore, hafter, hparts⟩
    rwa [splitAt_join]
  · rintro ⟨before, parts, after, htext, hbefore, hafter, hparts⟩
    rwa [htext, splitAt_trim_between hbefore hafter hparts.ne_nil hparts.isClockChar]

/-! ## Printing -/

theorem toList_twoDigits (n : Nat) : (twoDigits n).toList =
    if n < 10 then '0' :: Nat.toDigits 10 n else Nat.toDigits 10 n := by
  unfold twoDigits
  split_ifs with h
  · simp [toString]
  · simp

theorem padded_twoDigits (n : Nat) : Padded (twoDigits n).toList := by
  rw [toList_twoDigits]
  split_ifs with h
  · exact .zero_cons h
  · exact .toDigits (by omega)

theorem value_twoDigits (n : Nat) : Nat.ofDigitChars 10 (twoDigits n).toList 0 = n := by
  rw [toList_twoDigits]
  split_ifs
  · rw [value_cons, Nat.ofDigitChars_ten_toDigits, Nat.sub_self, Nat.mul_zero, Nat.zero_add]
  · exact Nat.ofDigitChars_ten_toDigits

theorem component_twoDigits {n : Nat} (h : n < 2 ^ 32) : Component (twoDigits n).toList n := by
  have hpadded := padded_twoDigits n
  refine ⟨[], (twoDigits n).toList, rfl, .inl rfl, ⟨?_, hpadded.isDigit, value_twoDigits n⟩, h⟩
  exact List.ne_nil_of_length_pos (by have := hpadded.two_le; omega)

theorem toList_secondsText (total : Nat) : (secondsText total).toList =
    [':'].intercalate [(twoDigits (total / 3600)).toList,
      (twoDigits (total % 3600 / 60)).toList, (twoDigits (total % 60)).toList] := by
  simp [secondsText, toString, List.intercalate, List.intersperse]

/-- What is printed is read as what it was printed from. -/
theorem parseSeconds_secondsText {total : Nat} (h : total < 2 ^ 32 * 3600) :
    parseSeconds (secondsText total) = .ok total := by
  rw [parseSeconds_eq_ok_iff]
  have hparts : Parts [(twoDigits (total / 3600)).toList, (twoDigits (total % 3600 / 60)).toList,
      (twoDigits (total % 60)).toList] total :=
    .long (component_twoDigits (by omega)) (component_twoDigits (by omega))
      (component_twoDigits (by omega)) (by omega) (by omega) (by omega)
  refine ⟨[], _, [], ?_, by simp, by simp, hparts⟩
  rw [toList_secondsText, List.nil_append, List.append_nil]

theorem twoDigits_of_component {part : List Char} {n : Nat} (h : Padded part)
    (hpart : Component part n) : (twoDigits n).toList = part :=
  (padded_twoDigits n).eq_of_value h
    ((value_twoDigits n).trans (hpart.value_of_isDigit h.isDigit).symm)

/-- A canonical text is printed for what is read from it. -/
theorem secondsText_of_canonical {text : String} {n : Nat} (hcanonical : Canonical text)
    (hread : parseSeconds text = .ok n) : secondsText n = text := by
  obtain ⟨h, m, s, htext, hh, ⟨hm, -⟩, hs, -⟩ := hcanonical
  have hdigit : ∀ part ∈ [h, m, s], ∀ c ∈ part, IsClockChar c := by
    have hall {part : List Char} (hpart : Padded part) : ∀ c ∈ part, IsClockChar c :=
      fun c hc => isClockChar_of_isDigit (hpart.isDigit c hc)
    simpa using ⟨hall hh, hall hm, hall hs⟩
  have hsplit : splitAt ':' (trim text.toList) = [h, m, s] := by
    have hbetween := @splitAt_trim_between [] [] _ (by simp) (by simp) (List.cons_ne_nil h [m, s])
      hdigit
    rwa [List.nil_append, List.append_nil, ← htext] at hbetween
  rw [parseSeconds_eq_ok_iff_parts, hsplit] at hread
  cases hread with
  | @long _ _ _ hours minutes seconds _ hhours hminutes hseconds sixty sixty' value =>
    have hhour : n / 3600 = hours := by omega
    have hminute : n % 3600 / 60 = minutes := by omega
    have hsecond : n % 60 = seconds := by omega
    rw [← String.toList_inj, toList_secondsText, hhour, hminute, hsecond,
      twoDigits_of_component hh hhours, twoDigits_of_component hm hminutes,
      twoDigits_of_component hs hseconds, htext]

/-- From midnight on, what is printed is the whole part. -/
theorem text_eq {time : Float} (hfinite : Scalar.isFinite time = true) (h : 0 ≤ valueOf time)
    (hlimit : ⌊valueOf time⌋₊ ≤ wordMax) : text time = secondsText ⌊valueOf time⌋₊ := by
  have hnumber : Scalar.IsNumber (Scalar.abs time) :=
    (LawfulMeasure.isMeasure_abs (float_isNumber_of_isFinite hfinite)).isNumber
  rw [text, if_pos hfinite, if_neg (not_lt_zero_of_valueOf h), truncate_eq_floor hnumber,
    valueOf_abs, abs_of_nonneg h, min_eq_left hlimit]
  exact String.empty_append

theorem parse_eq_ok_iff {text : String} {time : Float} :
    parse text = .ok time ↔ ∃ n, parseSeconds text = .ok n ∧ Scalar.ofNat n = time := by
  rw [parse]
  cases parseSeconds text <;> simp [Functor.map, Except.map]

theorem Parts.lt {parts : List (List Char)} {n : Nat} (h : Parts parts n) : n < 2 ^ 32 * 3600 := by
  cases h with
  | short hh hm sixty value =>
    obtain ⟨_, _, -, -, -, hlt⟩ := hh
    omega
  | long hh hm hs sixty sixty' value =>
    obtain ⟨_, _, -, -, -, hlt⟩ := hh
    omega

theorem Writes.lt {text : String} {n : Nat} (h : Writes text n) : n < 2 ^ 32 * 3600 := by
  obtain ⟨_, _, _, -, -, -, hparts⟩ := h
  exact hparts.lt

theorem standsFor_of_lt {n : Nat} (h : n < 2 ^ 32 * 3600) : StandsFor (Scalar.ofNat n) n :=
  standsFor_ofNat (h.trans (by decide))

/-- A text is read exactly when it writes a time, and as the number of its seconds. A time that is
printed is read again without its fraction, and a canonical text that is read is printed again. -/
theorem parse_roundTrip :
    (∀ (text : String) (time : Float), parse text = .ok time ↔
      ∃ n, Writes text n ∧ time = Scalar.ofNat n ∧ StandsFor time n) ∧
    (∀ (time : Float) (t : ℚ), StandsFor time t → 0 ≤ t → t < 2 ^ 32 * 3600 →
      ∃ whole : Float, parse (Clock.text time) = .ok whole ∧ StandsFor whole ⌊t⌋₊) ∧
    ∀ (text : String) (time : Float), Canonical text → parse text = .ok time →
      Clock.text time = text := by
  have hread (text : String) (time : Float) : parse text = .ok time ↔
      ∃ n, Writes text n ∧ time = Scalar.ofNat n ∧ StandsFor time n := by
    simp only [parse_eq_ok_iff, parseSeconds_eq_ok_iff]
    constructor
    · rintro ⟨n, hwrites, rfl⟩
      exact ⟨n, hwrites, rfl, standsFor_of_lt hwrites.lt⟩
    · rintro ⟨n, hwrites, rfl, -⟩
      exact ⟨n, hwrites, rfl⟩
  refine ⟨hread, ?_, ?_⟩
  · rintro time t ⟨hfinite, rfl⟩ hzero hlimit
    have hfloor : ⌊valueOf time⌋₊ < 2 ^ 32 * 3600 := by
      rw [Nat.floor_lt hzero]
      exact_mod_cast hlimit
    refine ⟨Scalar.ofNat ⌊valueOf time⌋₊, ?_, standsFor_of_lt hfloor⟩
    rw [text_eq hfinite hzero (hfloor.le.trans (by decide)), parse_eq_ok_iff]
    exact ⟨_, parseSeconds_secondsText hfloor, rfl⟩
  · intro text time hcanonical hparse
    obtain ⟨n, hwrites, rfl, hfinite, hvalue⟩ := (hread text time).mp hparse
    have hzero : 0 ≤ valueOf (Scalar.ofNat n) := hvalue ▸ Nat.cast_nonneg n
    have hfloor : ⌊valueOf (Scalar.ofNat n)⌋₊ = n := by rw [hvalue, Nat.floor_natCast]
    have hlimit : ⌊valueOf (Scalar.ofNat n)⌋₊ ≤ wordMax :=
      hfloor.trans_le (hwrites.lt.le.trans (by decide))
    rw [text_eq hfinite hzero hlimit, hfloor]
    exact secondsText_of_canonical hcanonical (parseSeconds_eq_ok_iff.mpr hwrites)

theorem parse_roundTrip_evening :
    StandsFor 66909.75 (267639 / 4) ∧
      (∃ whole : Float, parse (Clock.text (66909.75 : Float)) = .ok whole ∧
        StandsFor whole 66909) ∧
      Canonical "18:35:09" ∧ parse "18:35:09" = .ok (Scalar.ofNat 66909 : Float) ∧
      Clock.text (Scalar.ofNat 66909 : Float) = "18:35:09" := by
  have htime : StandsFor 66909.75 (267639 / 4) := by
    have hunits : unitsOf 66909.75 * 4 = 267639 * 2 ^ oneExponent := by decide +kernel
    refine ⟨rfl, ?_⟩
    rw [valueOf, div_eq_div_iff (by positivity) four_ne_zero]
    exact_mod_cast hunits
  have hcanonical : Canonical "18:35:09" := by
    have htwo (a b : Char) (ha : a.isDigit = true) (hb : b.isDigit = true) : Padded [a, b] :=
      ⟨by simp [ha, hb], Nat.le_refl 2, .inl rfl⟩
    exact ⟨['1', '8'], ['3', '5'], ['0', '9'], rfl, htwo _ _ rfl rfl, ⟨htwo _ _ rfl rfl, rfl⟩,
      htwo _ _ rfl rfl, rfl⟩
  have hread : parse "18:35:09" = .ok (Scalar.ofNat 66909 : Float) :=
    parse_eq_ok_iff.mpr ⟨66909, rfl, rfl⟩
  have hwhole := parse_roundTrip.2.1 66909.75 (267639 / 4) htime (by norm_num) (by norm_num)
  have hfloor : ⌊(267639 / 4 : ℚ)⌋₊ = 66909 := by norm_num
  rw [hfloor] at hwhole
  exact ⟨htime, mod_cast hwhole, hcanonical, hread,
    parse_roundTrip.2.2 "18:35:09" _ hcanonical hread⟩

end Clock

end ZoneSkims
