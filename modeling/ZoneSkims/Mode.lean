import ZoneSkims.Text.Blank

/-!
# Transport modes

A road link carries the set of modes that may use it, a transit route a single mode. Modes are
named in lower case; reading ignores case and the blanks around a name.

* `Mode.parse`: the mode of a label.
* `ModeSet`: a set of modes as a word with one bit per mode.
* `ModeSet.parse`: the set of a list of labels between commas.
-/

namespace ZoneSkims

/-- A way of travelling. -/
inductive Mode where
  | car
  | walk
  | bike
  | bus
  | rail
  | tram
  | subway
  | ferry
  deriving DecidableEq

/-- A text that is not the label of a mode. -/
structure UnknownMode where
  text : String
  deriving DecidableEq

def UnknownMode.message (e : UnknownMode) : String :=
  s!"parse error: unknown transport mode '{e.text}'"

namespace Mode

/-- The modes in their order. -/
def all : List Mode := [car, walk, bike, bus, rail, tram, subway, ferry]

/-- The place of a mode in `all`. -/
def position : Mode → Nat
  | car => 0
  | walk => 1
  | bike => 2
  | bus => 3
  | rail => 4
  | tram => 5
  | subway => 6
  | ferry => 7

def label : Mode → String
  | car => "car"
  | walk => "walk"
  | bike => "bike"
  | bus => "bus"
  | rail => "rail"
  | tram => "tram"
  | subway => "subway"
  | ferry => "ferry"

/-- Modes of scheduled services. -/
def isTransit : Mode → Bool
  | bus | rail | tram | subway | ferry => true
  | car | walk | bike => false

/-- The mode with exactly this label. -/
def ofLabel? (text : List Char) : Option Mode :=
  all.find? fun mode => mode.label.toList == text

/-- The mode that a text names. -/
def ofChars (text : List Char) : Except UnknownMode Mode :=
  match ofLabel? ((trim text).map Char.toLower) with
  | some mode => .ok mode
  | none => .error ⟨String.ofList text⟩

/-- The mode that a text names. -/
def parse (text : String) : Except UnknownMode Mode :=
  ofChars text.toList

theorem mem_all (mode : Mode) : mode ∈ all := by
  cases mode <;> decide

theorem ofLabel?_label (mode : Mode) : ofLabel? mode.label.toList = some mode := by
  cases mode <;> rfl

end Mode

/-- A set of modes. The bits above the modes are kept but stand for nothing. -/
structure ModeSet where
  bits : UInt16
  deriving DecidableEq

namespace ModeSet

/-- The bit of a mode. -/
def bit (mode : Mode) : UInt16 :=
  1 <<< UInt16.ofNat mode.position

def empty : ModeSet := ⟨0⟩

def insert (set : ModeSet) (mode : Mode) : ModeSet :=
  ⟨set.bits ||| bit mode⟩

def single (mode : Mode) : ModeSet :=
  ⟨bit mode⟩

def contains (set : ModeSet) (mode : Mode) : Bool :=
  set.bits &&& bit mode != 0

instance : Membership Mode ModeSet := ⟨fun set mode => set.contains mode = true⟩

instance (mode : Mode) (set : ModeSet) : Decidable (mode ∈ set) :=
  inferInstanceAs (Decidable (set.contains mode = true))

def isEmpty (set : ModeSet) : Bool :=
  set.bits == 0

def ofList (modes : List Mode) : ModeSet :=
  modes.foldl insert empty

/-- The modes of a set in their order. -/
def toList (set : ModeSet) : List Mode :=
  Mode.all.filter set.contains

/-- The set of the labels between commas. Blank parts are skipped, and the first part that is no
label is the error. -/
def parse (text : String) : Except UnknownMode ModeSet :=
  ((splitAt ',' text.toList).filter fun part => trim part ≠ []).foldlM
    (fun set part => set.insert <$> Mode.ofChars part) empty

end ModeSet

end ZoneSkims
