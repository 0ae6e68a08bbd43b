import Mathlib.Data.Nat.Bitwise
import Mathlib.Logic.Relation
import ZoneSkims.Mode
import ZoneSkims.Proofs.Breach
import ZoneSkims.Proofs.Text.Blank

/-!
# Lists of modes

A part of a text names a mode when it is the label of the mode with blanks around it, its letters in
either case. A list of labels is read part by part, and blank parts are passed over. So the set that
is read has the modes that are named, and reading ends at the first part that is neither blank nor a
label.

A part matters only through its bare letters, and a list only through those of its parts that have
any. Five kinds of changes leave these alone, and so does any number of them.

* `Mode.NamedBy`, `Mode.ofChars_eq_ok_iff`: the texts that name a mode.
* `ModeSet.mem_ofList`, `ModeSet.ofList_toList`: sets of lists, and lists of sets.
* `ModeSet.Listed`, `ModeSet.FirstStray`: what is read, and where reading ends.
* `ModeSet.Change`: the changes of a list that keep what is read.
* `ModeSet.parse_exact`: the main result.
-/

namespace ZoneSkims

/-! ## Labels -/

namespace Mode

theorem isLower_of_mem_label (mode : Mode) : ∀ c ∈ mode.label.toList, c.isLower = true := by
  have hall : mode.label.toList.all Char.isLower = true := by cases mode <;> decide
  exact List.all_eq_true.mp hall

theorem label_ne_nil (mode : Mode) : mode.label.toList ≠ [] := by
  cases mode <;> decide

theorem map_toLower_label (mode : Mode) :
    mode.label.toList.map Char.toLower = mode.label.toList := by
  cases mode <;> decide

theorem ofLabel?_eq_some_iff {name : List Char} {mode : Mode} :
    ofLabel? name = some mode ↔ name = mode.label.toList := by
  constructor
  · intro h
    have hfound := List.find?_some h
    exact (eq_of_beq hfound).symm
  · rintro rfl
    exact ofLabel?_label mode

/-- The text in lower case, without the blanks at its ends. -/
def bare (text : List Char) : List Char := (trim text).map Char.toLower

/-- The label of the mode, its letters in either case, with blanks around it. -/
def NamedBy (mode : Mode) (text : List Char) : Prop :=
  ∃ before name after, text = before ++ name ++ after ∧ Blank before ∧ Blank after ∧
    SameLetters name mode.label.toList

theorem bare_eq_nil_iff {text : List Char} : bare text = [] ↔ Blank text := by
  rw [bare, List.map_eq_nil_iff, trim_eq_nil_iff]

theorem namedBy_iff {mode : Mode} {text : List Char} :
    mode.NamedBy text ↔ bare text = mode.label.toList := by
  constructor
  · rintro ⟨before, name, after, rfl, hbefore, hafter, hname⟩
    rw [SameLetters, map_toLower_label] at hname
    have hblank : ∀ c ∈ mode.label.toList, isBlank c = false :=
      fun c hc => isBlank_of_isLower (mode.isLower_of_mem_label c hc)
    rw [bare, trim_append_right hafter, trim_append_left hbefore, ← trim_map_toLower, hname,
      trim_eq_self hblank]
  · intro h
    obtain ⟨before, after, htext, hbefore, hafter⟩ := exists_trim text
    refine ⟨before, trim text, after, htext, hbefore, hafter, ?_⟩
    rw [SameLetters, map_toLower_label]
    exact h

theorem NamedBy.not_blank {mode : Mode} {text : List Char} (h : mode.NamedBy text) :
    ¬ Blank text := by
  rw [← bare_eq_nil_iff, namedBy_iff.mp h]
  exact mode.label_ne_nil

/-- What is read is the mode that is named. -/
theorem ofChars_eq_ok_iff {text : List Char} {mode : Mode} :
    ofChars text = .ok mode ↔ mode.NamedBy text := by
  rw [namedBy_iff, ← ofLabel?_eq_some_iff, bare, ofChars]
  cases ofLabel? ((trim text).map Char.toLower) <;> simp

/-- A text that names no mode is the error. -/
theorem ofChars_eq_error_iff {text : List Char} {e : UnknownMode} :
    ofChars text = .error e ↔ (∀ mode : Mode, ¬ mode.NamedBy text) ∧ e = ⟨String.ofList text⟩ := by
  simp only [namedBy_iff, ← ofLabel?_eq_some_iff, bare]
  rw [ofChars]
  cases ofLabel? ((trim text).map Char.toLower) <;> simp [eq_comm]

/-! ## Places -/

theorem position_injective : Function.Injective position := by
  have hplace (mode : Mode) : all[mode.position]? = some mode := by cases mode <;> rfl
  intro mode other h
  exact Option.some.inj ((hplace mode).symm.trans (h ▸ hplace other))

end Mode

namespace ModeSet

/-! ## Sets as words -/

theorem toNat_bit (mode : Mode) : (bit mode).toNat = 2 ^ mode.position := by
  cases mode <;> rfl

/-- The bit at the place of a mode says whether the mode is in the set. -/
theorem mem_iff_testBit {set : ModeSet} {mode : Mode} :
    mode ∈ set ↔ set.bits.toNat.testBit mode.position = true := by
  change (set.bits &&& bit mode != 0) = true ↔ _
  rw [bne_iff_ne, ne_eq, ← UInt16.toNat_inj, UInt16.toNat_and, toNat_bit, Nat.and_two_pow]
  cases set.bits.toNat.testBit mode.position <;> simp

theorem testBit_insert (set : ModeSet) (mode : Mode) (i : Nat) :
    (set.insert mode).bits.toNat.testBit i =
      (set.bits.toNat.testBit i || decide (mode.position = i)) := by
  rw [insert, UInt16.toNat_or, Nat.testBit_or, toNat_bit, Nat.testBit_two_pow]

/-- The bits of the set of a list are those of its modes. -/
theorem testBit_ofList {modes : List Mode} {i : Nat} :
    (ofList modes).bits.toNat.testBit i = true ↔ ∃ mode ∈ modes, mode.position = i := by
  -- The bits that the set has before are kept, so the induction is on the modes for any set.
  have hinsert (set : ModeSet) : (modes.foldl insert set).bits.toNat.testBit i = true ↔
      set.bits.toNat.testBit i = true ∨ ∃ mode ∈ modes, mode.position = i := by
    induction modes generalizing set with
    | nil => simp
    | cons mode modes ih =>
      rw [List.foldl_cons, ih, testBit_insert]
      simp [or_assoc]
  rw [ofList, hinsert]
  simp [empty]

theorem mem_ofList {modes : List Mode} {mode : Mode} : mode ∈ ofList modes ↔ mode ∈ modes := by
  rw [mem_iff_testBit, testBit_ofList]
  constructor
  · rintro ⟨other, hother, hposition⟩
    exact Mode.position_injective hposition ▸ hother
  · intro h
    exact ⟨mode, h, rfl⟩

/-- Lists of the same modes have the same set. -/
theorem ofList_congr {modes other : List Mode} (h : ∀ mode, mode ∈ modes ↔ mode ∈ other) :
    ofList modes = ofList other := by
  have hbits : (ofList modes).bits.toNat = (ofList other).bits.toNat := by
    refine Nat.eq_of_testBit_eq fun i => Bool.eq_iff_iff.mpr ?_
    simp only [testBit_ofList, h]
  exact congrArg ModeSet.mk (UInt16.toNat_inj.mp hbits)

theorem mem_toList {set : ModeSet} {mode : Mode} : mode ∈ set.toList ↔ mode ∈ set := by
  rw [toList, List.mem_filter]
  exact and_iff_right mode.mem_all

/-- The set of a list holds nothing but modes. -/
theorem ofList_toList (modes : List Mode) : ofList (ofList modes).toList = ofList modes :=
  ofList_congr fun _ => mem_toList.trans mem_ofList

/-! ## Reading -/

/-- What the parts of a list are read as. -/
structure Listed (parts : List (List Char)) (set : ModeSet) : Prop where
  /-- No part is anything but a label or blank. -/
  readable : ∀ part ∈ parts, Blank part ∨ ∃ mode : Mode, mode.NamedBy part
  /-- The modes of the set are those that parts name. -/
  mem_iff : ∀ mode, mode ∈ set ↔ ∃ part ∈ parts, mode.NamedBy part
  /-- No other bit is set. -/
  onlyModes : ofList set.toList = set

/-- Neither blank nor a label. -/
def Stray (part : List Char) : Prop := ¬ Blank part ∧ ∀ mode : Mode, ¬ mode.NamedBy part

/-- The first of the parts that is neither blank nor a label. -/
def FirstStray (parts : List (List Char)) (part : List Char) : Prop :=
  ∃ before after, parts = before ++ part :: after ∧ (∀ earlier ∈ before, ¬ Stray earlier) ∧
    Stray part

theorem not_stray_iff {part : List Char} :
    ¬ Stray part ↔ Blank part ∨ ∃ mode : Mode, mode.NamedBy part := by
  simp only [Stray, not_and_or, not_not, not_forall]

theorem Listed.unique {parts : List (List Char)} {set other : ModeSet} (h : Listed parts set)
    (h' : Listed parts other) : set = other := by
  have hmem (mode : Mode) : mode ∈ set.toList ↔ mode ∈ other.toList := by
    rw [mem_toList, mem_toList, h.mem_iff, h'.mem_iff]
  rw [← h.onlyModes, ← h'.onlyModes, ofList_congr hmem]

variable {text : String} {parts : List (List Char)} {set : ModeSet}

/-- The parts that are not blank. -/
def written (parts : List (List Char)) : List (List Char) :=
  parts.filter fun part => trim part ≠ []

theorem mem_written {part : List Char} : part ∈ written parts ↔ part ∈ parts ∧ ¬ Blank part := by
  rw [written, List.mem_filter, decide_eq_true_iff, ne_eq, trim_eq_nil_iff]

/-- The labels are read one after the other, and their modes are put into a set. -/
theorem parse_eq (h : HasParts ',' text.toList parts) :
    parse text = ofList <$> (written parts).mapM Mode.ofChars := by
  rw [parse, hasParts_iff.mp h]
  exact (map_foldl_mapM (written parts) empty).symm

theorem listed_of_mapM {modes : List Mode} (h : (written parts).mapM Mode.ofChars = .ok modes) :
    Listed parts (ofList modes) where
  readable part hpart := by
    by_cases hblank : Blank part
    · exact .inl hblank
    · obtain ⟨mode, -, hmode⟩ := exists_of_mapM_eq_ok h (mem_written.mpr ⟨hpart, hblank⟩)
      exact .inr ⟨mode, Mode.ofChars_eq_ok_iff.mp hmode⟩
  mem_iff mode := by
    rw [mem_ofList, mem_iff_of_mapM_eq_ok h]
    constructor
    · rintro ⟨part, hpart, hmode⟩
      exact ⟨part, (mem_written.mp hpart).1, Mode.ofChars_eq_ok_iff.mp hmode⟩
    · rintro ⟨part, hpart, hmode⟩
      exact ⟨part, mem_written.mpr ⟨hpart, hmode.not_blank⟩, Mode.ofChars_eq_ok_iff.mpr hmode⟩
  onlyModes := ofList_toList modes

/-- The first failure among the labels is that of the first stray part. -/
theorem mapM_eq_error_iff_firstStray {e : UnknownMode} :
    (written parts).mapM Mode.ofChars = .error e ↔
      ∃ part, FirstStray parts part ∧ e = ⟨String.ofList part⟩ := by
  rw [mapM_eq_error_iff]
  constructor
  · rintro ⟨before, part, after, hwritten, hbefore, hfails⟩
    obtain ⟨front, rest, rfl, rfl, hrest⟩ := List.filter_eq_append_iff.mp hwritten
    obtain ⟨blanks, back, rfl, hblanks, hpart, -⟩ := List.filter_eq_cons_iff.mp hrest
    obtain ⟨hnamed, rfl⟩ := Mode.ofChars_eq_error_iff.mp hfails
    simp only [decide_eq_true_iff, ne_eq, not_not, trim_eq_nil_iff] at hblanks hpart
    refine ⟨part, ⟨front ++ blanks, back, (List.append_assoc ..).symm, ?_, hpart, hnamed⟩, rfl⟩
    -- What comes before has been read or is blank, and so is not stray.
    refine List.forall_mem_append.mpr ⟨fun earlier hearlier => ?_, fun earlier hearlier => ?_⟩
    · rintro ⟨hblank, hnone⟩
      obtain ⟨mode, hmode⟩ := hbefore earlier (mem_written.mpr ⟨hearlier, hblank⟩)
      exact hnone mode (Mode.ofChars_eq_ok_iff.mp hmode)
    · exact fun hstray => hstray.1 (hblanks earlier hearlier)
  · rintro ⟨part, ⟨before, after, rfl, hbefore, hblank, hnone⟩, rfl⟩
    refine ⟨written before, part, written after, ?_, fun earlier hearlier => ?_,
      Mode.ofChars_eq_error_iff.mpr ⟨hnone, rfl⟩⟩
    · rw [written, List.filter_append, List.filter_cons_of_pos (by simpa [trim_eq_nil_iff])]
      rfl
    · obtain ⟨hmem, hwritten⟩ := mem_written.mp hearlier
      obtain hblank | ⟨mode, hmode⟩ := not_stray_iff.mp (hbefore earlier hmem)
      · exact absurd hblank hwritten
      · exact ⟨mode, Mode.ofChars_eq_ok_iff.mpr hmode⟩

theorem parse_eq_error_iff (h : HasParts ',' text.toList parts) {e : UnknownMode} :
    parse text = .error e ↔ ∃ part, FirstStray parts part ∧ e = ⟨String.ofList part⟩ := by
  rw [← mapM_eq_error_iff_firstStray, parse_eq h]
  cases (written parts).mapM Mode.ofChars <;> simp

/-- Parts among which none is stray are read. -/
theorem exists_parse_eq_ok (h : HasParts ',' text.toList parts)
    (hreadable : ∀ part ∈ parts, Blank part ∨ ∃ mode : Mode, mode.NamedBy part) :
    ∃ set, parse text = .ok set ∧ Listed parts set := by
  rw [parse_eq h]
  cases hmodes : (written parts).mapM Mode.ofChars with
  | ok modes => exact ⟨ofList modes, rfl, listed_of_mapM hmodes⟩
  | error e =>
    obtain ⟨part, ⟨before, after, rfl, -, hstray⟩, -⟩ := mapM_eq_error_iff_firstStray.mp hmodes
    exact absurd hstray (not_stray_iff.mpr (hreadable part (by simp)))

theorem parse_eq_ok_iff (h : HasParts ',' text.toList parts) :
    parse text = .ok set ↔ Listed parts set := by
  constructor
  · intro hparse
    rw [parse_eq h] at hparse
    cases hmodes : (written parts).mapM Mode.ofChars with
    | ok modes =>
      rw [hmodes] at hparse
      cases hparse
      exact listed_of_mapM hmodes
    | error e =>
      rw [hmodes] at hparse
      cases hparse
  · intro hlisted
    obtain ⟨other, hparse, hother⟩ := exists_parse_eq_ok h hlisted.readable
    rw [hparse, hlisted.unique hother]

/-! ## Changes that keep what is read -/

/-- One change of a list of labels. -/
inductive Change : List (List Char) → List (List Char) → Prop
  | order {parts other : List (List Char)} (h : parts.Perm other) : Change parts other
  | repetition {part : List Char} {parts : List (List Char)} (h : part ∈ parts) :
      Change parts (part :: parts)
  | blank {part : List Char} (h : Blank part) (parts : List (List Char)) :
      Change parts (part :: parts)
  | letterCase {part other : List Char} (h : SameLetters part other) (parts : List (List Char)) :
      Change (part :: parts) (other :: parts)
  | space {before after : List Char} (hbefore : Blank before) (hafter : Blank after)
      (part : List Char) (parts : List (List Char)) :
      Change (part :: parts) ((before ++ part ++ after) :: parts)

/-- The same bare letters are in both lists. -/
def SameNames (parts other : List (List Char)) : Prop :=
  ∀ name ≠ [], name ∈ parts.map Mode.bare ↔ name ∈ other.map Mode.bare

theorem Change.sameNames {parts other : List (List Char)} (h : Change parts other) :
    SameNames parts other := by
  intro name hname
  cases h with
  | order h => exact (h.map Mode.bare).mem_iff
  | repetition h =>
    rw [List.map_cons, List.mem_cons]
    exact (or_iff_right_of_imp fun heq => heq ▸ List.mem_map_of_mem h).symm
  | blank h =>
    rw [List.map_cons, Mode.bare_eq_nil_iff.mpr h, List.mem_cons, or_iff_right hname]
  | letterCase h =>
    rw [List.map_cons, List.map_cons, Mode.bare, Mode.bare, ← trim_map_toLower, h,
      trim_map_toLower]
  | space hbefore hafter =>
    rw [List.map_cons, List.map_cons, Mode.bare, Mode.bare, trim_append_right hafter,
      trim_append_left hbefore]

theorem sameNames_of_changes {parts other : List (List Char)}
    (h : Relation.EqvGen Change parts other) : SameNames parts other := by
  induction h with
  | rel _ _ h => exact h.sameNames
  | refl => exact fun _ _ => Iff.rfl
  | symm _ _ _ ih => exact fun name hname => (ih name hname).symm
  | trans _ _ _ _ _ ih ih' => exact fun name hname => (ih name hname).trans (ih' name hname)

theorem Listed.of_sameNames {other : List (List Char)} (h : Listed parts set)
    (hnames : SameNames parts other) : Listed other set where
  readable part hpart := by
    by_cases hblank : Mode.bare part = []
    · exact .inl (Mode.bare_eq_nil_iff.mp hblank)
    · obtain ⟨source, hsource, hbare⟩ :=
        List.mem_map.mp ((hnames _ hblank).mpr (List.mem_map_of_mem hpart))
      rw [← hbare, Mode.bare_eq_nil_iff] at hblank
      obtain ⟨mode, hmode⟩ := (h.readable source hsource).resolve_left hblank
      exact .inr ⟨mode, Mode.namedBy_iff.mpr (hbare.symm.trans (Mode.namedBy_iff.mp hmode))⟩
  mem_iff mode := by
    have hlabel := hnames mode.label.toList mode.label_ne_nil
    rw [h.mem_iff]
    simpa only [List.mem_map, ← Mode.namedBy_iff] using hlabel
  onlyModes := h.onlyModes

theorem listed_iff_of_changes {other : List (List Char)} (h : Relation.EqvGen Change parts other) :
    Listed parts set ↔ Listed other set :=
  ⟨fun hlisted => hlisted.of_sameNames (sameNames_of_changes h),
    fun hlisted => hlisted.of_sameNames (sameNames_of_changes h.symm)⟩

/-! ## Lists of labels -/

/-- A label names its mode and no other. -/
theorem namedBy_label {mode other : Mode} : other.NamedBy mode.label.toList ↔ mode = other := by
  have hblank : ∀ c ∈ mode.label.toList, isBlank c = false :=
    fun c hc => isBlank_of_isLower (mode.isLower_of_mem_label c hc)
  rw [Mode.namedBy_iff, Mode.bare, trim_eq_self hblank, mode.map_toLower_label,
    ← Mode.ofLabel?_eq_some_iff, Mode.ofLabel?_label, Option.some_inj]

theorem comma_notMem_label (mode : Mode) : ',' ∉ mode.label.toList :=
  fun h => absurd (mode.isLower_of_mem_label ',' h) (by decide)

/-- The labels of modes between commas are read as the set of the modes. -/
theorem parse_labels (modes : List Mode) :
    parse (",".intercalate (modes.map Mode.label)) = .ok (ofList modes) := by
  by_cases hne : modes = []
  · subst hne
    rfl
  · have hparts : HasParts ',' (",".intercalate (modes.map Mode.label)).toList
        (modes.map fun mode => mode.label.toList) := by
      refine ⟨by simpa using hne, List.forall_mem_map.mpr fun mode _ => comma_notMem_label mode, ?_⟩
      rw [String.toList_intercalate, List.map_map]
      rfl
    refine (parse_eq_ok_iff hparts).mpr ⟨?_, fun mode => ?_, ofList_toList modes⟩
    · exact List.forall_mem_map.mpr fun mode _ => .inr ⟨mode, namedBy_label.mpr rfl⟩
    · simp [mem_ofList, namedBy_label]

/-- A list is read exactly when each of its parts is blank or a label, and as the set of the modes
that are named. What is read stays under changes of the order, repetitions, blank parts, the case of
letters and the blanks around labels. The labels of modes are read as their set. The error is that
of the first part that is neither blank nor a label. -/
theorem parse_exact :
    (∀ text : String, ∃! parts, HasParts ',' text.toList parts) ∧
    (∀ (text : String) (parts : List (List Char)), HasParts ',' text.toList parts →
      ((∃ set, parse text = .ok set) ↔
        ∀ part ∈ parts, Blank part ∨ ∃ mode : Mode, mode.NamedBy part) ∧
      (∀ set, parse text = .ok set ↔ Listed parts set) ∧
      ∀ e, parse text = .error e ↔ ∃ part, FirstStray parts part ∧
        e = ⟨String.ofList part⟩ ∧ Mode.parse (String.ofList part) = .error e) ∧
    (∀ (text other : String) (parts changed : List (List Char)),
      HasParts ',' text.toList parts → HasParts ',' other.toList changed →
      Relation.EqvGen Change parts changed → ∀ set, parse text = .ok set ↔ parse other = .ok set) ∧
    ∀ modes : List Mode, parse (",".intercalate (modes.map Mode.label)) = .ok (ofList modes) ∧
      ∀ mode, mode ∈ ofList modes ↔ mode ∈ modes := by
  refine ⟨fun text => ?_, fun text parts h => ⟨⟨?_, ?_⟩, fun set => parse_eq_ok_iff h, fun e => ?_⟩,
    fun text other parts changed h h' hchanges set => ?_,
    fun modes => ⟨parse_labels modes, fun mode => mem_ofList⟩⟩
  · simp [hasParts_iff]
  · rintro ⟨set, hparse⟩
    exact ((parse_eq_ok_iff h).mp hparse).readable
  · intro hreadable
    obtain ⟨set, hparse, -⟩ := exists_parse_eq_ok h hreadable
    exact ⟨set, hparse⟩
  · rw [parse_eq_error_iff h]
    refine exists_congr fun part => and_congr_right fun hfirst => (and_iff_left_of_imp ?_).symm
    rintro rfl
    obtain ⟨_, _, -, -, -, hnone⟩ := hfirst
    refine Mode.ofChars_eq_error_iff.mpr ⟨?_, by rw [String.toList_ofList]⟩
    rwa [String.toList_ofList]
  · rw [parse_eq_ok_iff h, parse_eq_ok_iff h', listed_iff_of_changes hchanges]

theorem parse_exact_busCar :
    HasParts ',' "bus,car".toList ["bus".toList, "car".toList] ∧
      HasParts ',' "CAR,,\u00a0bus ,bus".toList
        ["CAR".toList, [], "\u00a0bus ".toList, "bus".toList] ∧
      Relation.EqvGen Change ["bus".toList, "car".toList]
        ["CAR".toList, [], "\u00a0bus ".toList, "bus".toList] ∧
      parse "CAR,,\u00a0bus ,bus" = .ok (ofList [.bus, .car]) ∧
      HasParts ',' "car, boat,,zeppelin".toList
        ["car".toList, " boat".toList, [], "zeppelin".toList] ∧
      FirstStray ["car".toList, " boat".toList, [], "zeppelin".toList] " boat".toList ∧
      parse "car, boat,,zeppelin" = .error ⟨" boat"⟩ := by
  have hparts : HasParts ',' "bus,car".toList ["bus".toList, "car".toList] := hasParts_iff.mpr rfl
  have hchanged : HasParts ',' "CAR,,\u00a0bus ,bus".toList
      ["CAR".toList, [], "\u00a0bus ".toList, "bus".toList] := hasParts_iff.mpr rfl
  have hchanges : Relation.EqvGen Change ["bus".toList, "car".toList]
      ["CAR".toList, [], "\u00a0bus ".toList, "bus".toList] := by
    have hrepeated : Change ["bus".toList, "car".toList]
        ["bus".toList, "bus".toList, "car".toList] := .repetition List.mem_cons_self
    have hspaced : Change ["bus".toList, "bus".toList, "car".toList]
        ["\u00a0bus ".toList, "bus".toList, "car".toList] :=
      @Change.space ['\u00a0'] [' '] (by decide) (by decide) "bus".toList _
    have hblank : Change ["\u00a0bus ".toList, "bus".toList, "car".toList]
        [[], "\u00a0bus ".toList, "bus".toList, "car".toList] := .blank (by decide) _
    have hordered : Change [[], "\u00a0bus ".toList, "bus".toList, "car".toList]
        ["car".toList, [], "\u00a0bus ".toList, "bus".toList] := .order (by decide)
    have hcase : Change ["car".toList, [], "\u00a0bus ".toList, "bus".toList]
        ["CAR".toList, [], "\u00a0bus ".toList, "bus".toList] := .letterCase (by decide) _
    refine .trans _ _ _ (.rel _ _ hrepeated) (.trans _ _ _ (.rel _ _ hspaced) ?_)
    exact .trans _ _ _ (.rel _ _ hblank) (.trans _ _ _ (.rel _ _ hordered) (.rel _ _ hcase))
  have hread : parse "CAR,,\u00a0bus ,bus" = .ok (ofList [.bus, .car]) :=
    (parse_exact.2.2.1 _ _ _ _ hparts hchanged hchanges _).mp (parse_exact.2.2.2 [.bus, .car]).1
  have hboats : HasParts ',' "car, boat,,zeppelin".toList
      ["car".toList, " boat".toList, [], "zeppelin".toList] := hasParts_iff.mpr rfl
  have herror : parse "car, boat,,zeppelin" = .error ⟨" boat"⟩ := rfl
  obtain ⟨part, hfirst, hpart, -⟩ := ((parse_exact.2.1 _ _ hboats).2.2 _).mp herror
  have htext : " boat".toList = part := by simpa using congrArg (fun e => e.text.toList) hpart
  exact ⟨hparts, hchanged, hchanges, hread, hboats, htext ▸ hfirst, herror⟩

end ModeSet

end ZoneSkims
