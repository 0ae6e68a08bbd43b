import ZoneSkims.Text.Blank
import ZoneSkims.Text.Decimal
import ZoneSkims.Text.Digits

/-!
# Times of day

A time is the number of seconds after midnight of the service day. Times after 24:00:00 belong to
the night services of the same day, so the hours of a written time have no limit of 24.

* `Clock.parseSeconds`, `Clock.parse`: the time of a text with two or three parts.
* `Clock.text`: hours, minutes and seconds of a time, whole seconds only.
* `Window`: a span of departure times, and its check.
-/

namespace ZoneSkims

/-! ## Written times -/

/-- Why a text is not a time. -/
inductive TimeError where
  /-- Neither two nor three parts. -/
  | shape (text : String)
  /-- A part that is not a number below 2 ^ 32. -/
  | component (part : String) (text : String)
  /-- Minutes or seconds above 59. -/
  | sixty (text : String)
  deriving DecidableEq

def TimeError.message : TimeError → String
  | shape text => s!"parse error: expected HH:MM[:SS], got '{text}'"
  | component part text => s!"parse error: bad time component '{part}' in '{text}'"
  | sixty text => s!"parse error: minutes/seconds out of range in '{text}'"

namespace Clock

/-- A part of a time: digits after at most one plus sign, and a value below 2 ^ 32. -/
def component? (part : List Char) : Option Nat :=
  let digits := match part with
    | '+' :: rest => rest
    | _ => part
  if digits = [] then none
  else
    match number? digits with
    | some n => if n < UInt32.size then some n else none
    | none => none

/-- A part of the time written in `text`. -/
def component (text : String) (part : List Char) : Except TimeError Nat :=
  match component? part with
  | some n => .ok n
  | none => .error (.component (String.ofList part) text)

/-- The seconds of the hours, minutes and seconds of `text`, if the last two are below 60. -/
def total (text : String) (hours minutes seconds : Nat) : Except TimeError Nat :=
  if 60 ≤ minutes ∨ 60 ≤ seconds then .error (.sixty text)
  else .ok (hours * 3600 + minutes * 60 + seconds)

/-- The whole seconds that a text of two or three parts stands for. -/
def parseSeconds (text : String) : Except TimeError Nat :=
  match splitAt ':' (trim text.toList) with
  | [h, m] => do
    let hours ← component text h
    let minutes ← component text m
    total text hours minutes 0
  | [h, m, s] => do
    let hours ← component text h
    let minutes ← component text m
    let seconds ← component text s
    total text hours minutes seconds
  | _ => .error (.shape text)

variable {α : Type} [Scalar α]

/-- The time that a text stands for. -/
def parse (text : String) : Except TimeError α :=
  Scalar.ofNat <$> parseSeconds text

/-- A number with at least two digits. -/
def twoDigits (n : Nat) : String :=
  if n < 10 then s!"0{n}" else s!"{n}"

/-- Whole seconds as hours, minutes and seconds. -/
def secondsText (total : Nat) : String :=
  s!"{twoDigits (total / 3600)}:{twoDigits (total % 3600 / 60)}:{twoDigits (total % 60)}"

/-- A time in whole seconds, cut toward midnight, with a minus sign before it. -/
def text (time : α) : String :=
  if Scalar.isFinite time then
    (if time < 0 then "-" else "") ++ secondsText (Scalar.truncate (Scalar.abs time))
  else "--:--:--"

end Clock

/-! ## Windows -/

/-- A span of departure times, both ends included. -/
structure Window (α : Type) where
  start : α
  finish : α

/-- A span that is not one: an end is not finite, or the first is not before the last. -/
structure InvalidWindow (α : Type) where
  start : α
  finish : α

def InvalidWindow.message {α : Type} [DecimalText α] (e : InvalidWindow α) : String :=
  s!"invalid time window [{decimal e.start}, {decimal e.finish}]"

namespace Window

variable {α : Type} [Scalar α]

/-- Both ends are finite and the first is before the last. -/
def isValid (w : Window α) : Bool :=
  Scalar.isFinite w.start && Scalar.isFinite w.finish && decide (w.start < w.finish)

def validate (w : Window α) : Except (InvalidWindow α) Unit :=
  if w.isValid then .ok () else .error ⟨w.start, w.finish⟩

/-- The window between two times. -/
def between (start finish : α) : Except (InvalidWindow α) (Window α) := do
  let w := ⟨start, finish⟩
  w.validate
  return w

/-- The length in seconds. -/
def duration (w : Window α) : α := w.finish - w.start

/-- The length in hours. -/
def hours (w : Window α) : α := w.duration / 3600.0

def contains (w : Window α) (time : α) : Bool :=
  decide (w.start ≤ time) && decide (time ≤ w.finish)

def text (w : Window α) : String :=
  s!"{Clock.text w.start} - {Clock.text w.finish}"

end Window

end ZoneSkims
