import Mathlib.Data.List.TakeWhile
import ZoneSkims.Text.Blank

/-!
# Texts with blanks around and separators inside

Trimming takes the blanks from both ends and nothing else, so that a text without blanks comes back
from between them. The case of a letter does not matter to it. Splitting cuts at every separator,
and parts without a separator come back from between those.

* `exists_trim`, `trim_between`: what trimming takes and what it leaves.
* `trim_append_left`, `trim_append_right`, `trim_map_toLower`: what trimming does not depend on.
* `splitAt_intercalate`, `hasParts_iff`: splitting undoes joining, and a text has parts in one way.
-/

namespace ZoneSkims

/-! ## Trimming -/

/-- No character from the exclamation mark to the tilde is a blank. -/
theorem isBlank_eq_false {c : Char} (h : '!'.toNat ≤ c.toNat) (h' : c.toNat ≤ '~'.toNat) :
    isBlank c = false := by
  simp only [Char.reduceToNat] at h h'
  simp [isBlank]
  omega

/-- Trimming takes blanks from both ends. -/
theorem exists_trim (text : List Char) : ∃ before after : List Char,
    text = before ++ trim text ++ after ∧ (∀ c ∈ before, isBlank c = true) ∧
      ∀ c ∈ after, isBlank c = true := by
  have hback := List.takeWhile_append_dropWhile (p := isBlank)
    (l := (text.dropWhile isBlank).reverse)
  refine ⟨text.takeWhile isBlank,
    ((text.dropWhile isBlank).reverse.takeWhile isBlank).reverse, ?_,
    fun c hc => List.mem_takeWhile_imp hc, fun c hc => ?_⟩
  · rw [List.append_assoc, trim, ← List.reverse_append, hback, List.reverse_reverse,
      List.takeWhile_append_dropWhile]
  · exact List.mem_takeWhile_imp (List.mem_reverse.mp hc)

/-- Nothing but blanks. -/
def Blank (text : List Char) : Prop := ∀ c ∈ text, isBlank c = true

instance (text : List Char) : Decidable (Blank text) :=
  decidable_of_iff (text.all isBlank = true) List.all_eq_true

/-- Blanks in front make no difference. -/
theorem trim_append_left {before : List Char} (h : Blank before) (text : List Char) :
    trim (before ++ text) = trim text := by
  rw [trim, List.dropWhile_append_of_pos h, trim]

/-- Blanks at the end make no difference. -/
theorem trim_append_right {after : List Char} (h : Blank after) (text : List Char) :
    trim (text ++ after) = trim text := by
  have hreverse : ∀ c ∈ after.reverse, isBlank c = true := fun c hc => h c (List.mem_reverse.mp hc)
  rw [trim, trim, List.dropWhile_append]
  split_ifs with hempty
  · rw [List.isEmpty_iff.mp hempty, List.dropWhile_eq_nil_iff.mpr h]
  · rw [List.reverse_append, List.dropWhile_append_of_pos hreverse]

/-- Without blanks there is nothing to take. -/
theorem trim_eq_self {text : List Char} (h : ∀ c ∈ text, isBlank c = false) : trim text = text := by
  have hkeep {part : List Char} (hpart : ∀ c ∈ part, isBlank c = false) :
      part.dropWhile isBlank = part :=
    List.dropWhile_eq_self_iff.mpr fun hlength => by simp [hpart _ (List.getElem_mem hlength)]
  rw [trim, hkeep h, hkeep fun c hc => h c (List.mem_reverse.mp hc), List.reverse_reverse]

/-- A text without blanks comes back from between them. -/
theorem trim_between {before text after : List Char} (hbefore : ∀ c ∈ before, isBlank c = true)
    (hafter : ∀ c ∈ after, isBlank c = true) (h : ∀ c ∈ text, isBlank c = false) :
    trim (before ++ text ++ after) = text := by
  rw [trim_append_right hafter, trim_append_left hbefore, trim_eq_self h]

theorem trim_eq_nil_iff {text : List Char} : trim text = [] ↔ Blank text := by
  constructor
  · intro h
    obtain ⟨before, after, htext, hbefore, hafter⟩ := exists_trim text
    rw [htext, h, List.append_nil]
    exact List.forall_mem_append.mpr ⟨hbefore, hafter⟩
  · intro h
    rw [trim, List.dropWhile_eq_nil_iff.mpr h]
    rfl

/-! ## Letters in either case -/

/-- One text up to the case of the letters from A to Z. -/
def SameLetters (text other : List Char) : Prop := text.map Char.toLower = other.map Char.toLower

instance (text other : List Char) : Decidable (SameLetters text other) :=
  inferInstanceAs (Decidable (text.map Char.toLower = other.map Char.toLower))

theorem isBlank_of_isLower {c : Char} (h : c.isLower = true) : isBlank c = false := by
  obtain ⟨hfirst, hlast⟩ := Bool.and_eq_true_iff.mp h
  have hfirst' : 'a'.toNat ≤ c.toNat := of_decide_eq_true hfirst
  have hlast' : c.toNat ≤ 'z'.toNat := of_decide_eq_true hlast
  exact isBlank_eq_false (le_trans (by decide) hfirst') (hlast'.trans (by decide))

theorem toNat_toLower {c : Char} (h : 'A'.val ≤ c.val ∧ c.val ≤ 'Z'.val) :
    c.toLower.toNat = c.toNat + 32 := by
  have hvalue : c.toLower.val = c.val + 32 := congrArg Char.val (dif_pos h)
  have hlast : c.toNat ≤ 'Z'.toNat := h.2
  rw [← Char.toNat_val, hvalue, UInt32.toNat_add, Char.toNat_val]
  simp only [Char.reduceToNat, UInt32.reduceToNat] at hlast ⊢
  omega

/-- Neither case of a letter is a blank. -/
theorem isBlank_toLower (c : Char) : isBlank c.toLower = isBlank c := by
  by_cases h : 'A'.val ≤ c.val ∧ c.val ≤ 'Z'.val
  · have hbounds : 'A'.toNat ≤ c.toNat ∧ c.toNat ≤ 'Z'.toNat := h
    simp only [Char.reduceToNat] at hbounds
    have hupper : isBlank c = false := by
      apply isBlank_eq_false <;> simp only [Char.reduceToNat] <;> omega
    have hlower : isBlank c.toLower = false := by
      apply isBlank_eq_false <;> simp only [Char.reduceToNat, toNat_toLower h] <;> omega
    rw [hupper, hlower]
  · have hsame : c.toLower = c := dif_neg h
    rw [hsame]

theorem trim_map_toLower (text : List Char) :
    trim (text.map Char.toLower) = (trim text).map Char.toLower := by
  have hblank : isBlank ∘ Char.toLower = isBlank := funext isBlank_toLower
  rw [trim, trim, List.dropWhile_map, hblank, ← List.map_reverse, List.dropWhile_map, hblank,
    ← List.map_reverse]

/-! ## Splitting -/

variable {separator : Char} {part : List Char}

/-- A part without a separator is whole. -/
theorem splitAt_of_notMem (h : separator ∉ part) : splitAt separator part = [part] := by
  induction part with
  | nil => rfl
  | cons c part ih =>
    obtain ⟨hc, hpart⟩ := List.ne_and_not_mem_of_not_mem_cons h
    rw [splitAt, if_neg (Ne.symm hc), ih hpart]

/-- A part ends at the first separator. -/
theorem splitAt_append (h : separator ∉ part) (rest : List Char) :
    splitAt separator (part ++ separator :: rest) = part :: splitAt separator rest := by
  induction part with
  | nil => exact if_pos rfl
  | cons c part ih =>
    obtain ⟨hc, hpart⟩ := List.ne_and_not_mem_of_not_mem_cons h
    rw [List.cons_append, splitAt, if_neg (Ne.symm hc), ih hpart]

/-- Joined parts consist of what is in them and separators. -/
theorem mem_intercalate {parts : List (List Char)} {c : Char}
    (h : c ∈ [separator].intercalate parts) : c = separator ∨ ∃ part ∈ parts, c ∈ part := by
  induction parts with
  | nil => cases h
  | cons part parts ih =>
    cases parts with
    | nil => exact .inr ⟨part, List.mem_cons_self, by simpa using h⟩
    | cons next parts =>
      rw [List.intercalate_cons_cons, List.mem_append, List.mem_append, List.mem_singleton] at h
      rcases h with (hpart | hseparator) | hrest
      · exact .inr ⟨part, List.mem_cons_self, hpart⟩
      · exact .inl hseparator
      · exact (ih hrest).imp_right fun ⟨other, hother, hc⟩ =>
          ⟨other, List.mem_cons_of_mem part hother, hc⟩

/-- Splitting undoes joining. -/
theorem splitAt_intercalate {parts : List (List Char)} (hne : parts ≠ [])
    (h : ∀ part ∈ parts, separator ∉ part) :
    splitAt separator ([separator].intercalate parts) = parts := by
  induction parts with
  | nil => exact absurd rfl hne
  | cons part parts ih =>
    obtain ⟨hpart, hparts⟩ := List.forall_mem_cons.mp h
    cases parts with
    | nil => simpa using splitAt_of_notMem hpart
    | cons next parts =>
      rw [List.intercalate_cons_cons, List.append_assoc, List.singleton_append,
        splitAt_append hpart, ih (List.cons_ne_nil next parts) hparts]

/-- No part has a separator. -/
theorem notMem_of_mem_splitAt {text : List Char} (h : part ∈ splitAt separator text) :
    separator ∉ part := by
  induction text generalizing part with
  | nil =>
    rw [List.mem_singleton.mp h]
    exact List.not_mem_nil
  | cons c text ih =>
    rw [splitAt] at h
    split_ifs at h with hc
    · rcases List.mem_cons.mp h with rfl | h
      · exact List.not_mem_nil
      · exact ih h
    · cases hsplit : splitAt separator text with
      | nil => exact absurd hsplit (splitAt_ne_nil separator text)
      | cons first parts =>
        simp only [hsplit, List.mem_cons] at h ih
        rcases h with rfl | h
        · exact List.not_mem_cons_of_ne_of_not_mem (Ne.symm hc) (ih (.inl rfl))
        · exact ih (.inr h)

/-- The parts of a text, with a separator between each two of them. -/
structure HasParts (separator : Char) (text : List Char) (parts : List (List Char)) : Prop where
  ne_nil : parts ≠ []
  notMem : ∀ part ∈ parts, separator ∉ part
  join : [separator].intercalate parts = text

/-- Every text has parts in one way. -/
theorem hasParts_iff {text : List Char} {parts : List (List Char)} :
    HasParts separator text parts ↔ splitAt separator text = parts := by
  constructor
  · rintro ⟨hne, hnotMem, rfl⟩
    exact splitAt_intercalate hne hnotMem
  · rintro rfl
    exact ⟨splitAt_ne_nil separator text, fun _ => notMem_of_mem_splitAt,
      splitAt_join separator text⟩

end ZoneSkims
