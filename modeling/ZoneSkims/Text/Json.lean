import ZoneSkims.Scalar
import ZoneSkims.Text.Digits

/-!
# Documents in JSON

A document is one value: a literal, a number, a string, an array or an object. Nothing but blanks
may stand around it. Fields of an object keep their order, and a name may be there more than once.

* `Json.parse?`: the value of a document.
* `Json.natural?`, `Json.scalar?`: a number as a whole number or as a scalar.
* `Json.record?`: the fields of an object, or the elements of an array, in a fixed order.
-/

namespace ZoneSkims

/-- A number in decimal: the digits as a whole number, scaled by a power of ten. -/
structure JsonNumber where
  negative : Bool
  digits : Nat
  exponent : Int
  /-- Written with neither a fraction nor an exponent. -/
  whole : Bool
  deriving DecidableEq

/-- A value of a document. A string that is not made of characters, because a half of a surrogate
pair stands alone in it, has no text. -/
inductive Json where
  | null
  | bool (value : Bool)
  | number (value : JsonNumber)
  | string (text : Option String)
  | array (elements : List Json)
  | object (fields : List (Option String × Json))

namespace Json

/-! ## Blanks and literals -/

/-- The blanks of the format. -/
def isSpace (c : Char) : Bool :=
  c == ' ' || c == '\t' || c == '\n' || c == '\x0d'

def skipSpaces (text : List Char) : List Char := text.dropWhile isSpace

/-- The text after a literal. -/
def literal? : (letters : List Char) → List Char → Option (List Char)
  | [], rest => some rest
  | letter :: letters, c :: rest => if letter = c then literal? letters rest else none
  | _ :: _, [] => none

/-! ## Numbers -/

/-- The digits at the start of a text, which must have one, and what follows. -/
def digits? (text : List Char) : Option (List Char × List Char) :=
  match text.takeWhile Char.isDigit with
  | [] => none
  | digits => some (digits, text.dropWhile Char.isDigit)

/-- The digits before the point. A zero at their start is the only one. -/
def wholeDigits? (text : List Char) : Option (List Char × List Char) := do
  let (digits, rest) ← digits? text
  match digits with
  | '0' :: _ :: _ => none
  | _ => return (digits, rest)

/-- The digits after a point, if there is one. -/
def fractionDigits? : List Char → Option (List Char × List Char)
  | '.' :: rest => digits? rest
  | rest => some ([], rest)

/-- A power of ten, if there is one. -/
def power? : List Char → Option (Option Int × List Char)
  | c :: rest =>
    if c = 'e' ∨ c = 'E' then do
      let (negative, rest) := match rest with
        | '-' :: rest => (true, rest)
        | '+' :: rest => (false, rest)
        | rest => (false, rest)
      let (digits, rest) ← digits? rest
      let n ← ZoneSkims.number? digits
      return (some (if negative then -(n : Int) else n), rest)
    else some (none, c :: rest)
  | [] => some (none, [])

/-- The number at the start of a text. -/
def number? (text : List Char) : Option (JsonNumber × List Char) := do
  let (negative, text) := match text with
    | '-' :: rest => (true, rest)
    | rest => (false, rest)
  let (whole, rest) ← wholeDigits? text
  let (fraction, rest) ← fractionDigits? rest
  let (power, rest) ← power? rest
  let digits ← ZoneSkims.number? (whole ++ fraction)
  return ({ negative, digits
            exponent := power.getD 0 - (fraction.length : Int)
            whole := fraction.isEmpty && power.isNone }, rest)

/-! ## Strings -/

/-- The value of a digit in base sixteen. -/
def hexDigit? (c : Char) : Option Nat :=
  if c.isDigit then digit? c
  else if 'a' ≤ c ∧ c ≤ 'f' then some (c.toNat - 'a'.toNat + 10)
  else if 'A' ≤ c ∧ c ≤ 'F' then some (c.toNat - 'A'.toNat + 10)
  else none

/-- The number of four digits in base sixteen. -/
def hexUnit? : List Char → Option (Nat × List Char)
  | a :: b :: c :: d :: rest => do
    let a ← hexDigit? a
    let b ← hexDigit? b
    let c ← hexDigit? c
    let d ← hexDigit? d
    return (a * 4096 + b * 256 + c * 16 + d, rest)
  | _ => none

/-- The character that a letter after a backslash stands for. -/
def escaped? : Char → Option Char
  | '"' => some '"'
  | '\\' => some '\\'
  | '/' => some '/'
  | 'b' => some '\x08'
  | 'f' => some '\x0c'
  | 'n' => some '\n'
  | 'r' => some '\x0d'
  | 't' => some '\t'
  | _ => none

/-- A piece of a string: a character, or the 16-bit unit that an escape gives by its number. -/
inductive Piece where
  | char (c : Char)
  | unit (n : Nat)

/-- The pieces of a string up to its closing quotation mark. Controls have to be escaped. -/
def pieces? : (fuel : Nat) → List Char → Option (List Piece × List Char)
  | 0, _ => none
  | fuel + 1, text =>
    match text with
    | '"' :: rest => some ([], rest)
    | '\\' :: 'u' :: rest => do
      let (n, rest) ← hexUnit? rest
      let (pieces, rest) ← pieces? fuel rest
      return (.unit n :: pieces, rest)
    | '\\' :: letter :: rest => do
      let c ← escaped? letter
      let (pieces, rest) ← pieces? fuel rest
      return (.char c :: pieces, rest)
    | c :: rest =>
      if c.toNat < 0x20 ∨ c = '\\' then none
      else do
        let (pieces, rest) ← pieces? fuel rest
        return (.char c :: pieces, rest)
    | [] => none

/-- The characters of pieces. Units of surrogate pairs have to follow each other. -/
def characters? : List Piece → Option (List Char)
  | [] => some []
  | .char c :: rest => (c :: ·) <$> characters? rest
  | .unit n :: rest =>
    if n < 0xD800 ∨ 0xDFFF < n then (Char.ofNat n :: ·) <$> characters? rest
    else
      match rest with
      | .unit low :: rest =>
        if n < 0xDC00 ∧ 0xDC00 ≤ low ∧ low ≤ 0xDFFF then
          (Char.ofNat (0x10000 + (n - 0xD800) * 0x400 + (low - 0xDC00)) :: ·) <$> characters? rest
        else none
      | _ => none

/-- The string after its opening quotation mark. -/
def string? (text : List Char) : Option (Option String × List Char) := do
  let (pieces, rest) ← pieces? (text.length + 1) text
  return (String.ofList <$> characters? pieces, rest)

/-! ## Values -/

mutual

/-- The value at the start of a text. -/
def value? : (fuel : Nat) → List Char → Option (Json × List Char)
  | 0, _ => none
  | fuel + 1, text =>
    match skipSpaces text with
    | 'n' :: rest => (null, ·) <$> literal? ['u', 'l', 'l'] rest
    | 't' :: rest => (bool true, ·) <$> literal? ['r', 'u', 'e'] rest
    | 'f' :: rest => (bool false, ·) <$> literal? ['a', 'l', 's', 'e'] rest
    | '"' :: rest => do
      let (text, rest) ← string? rest
      return (string text, rest)
    | '[' :: rest =>
      match skipSpaces rest with
      | ']' :: rest => some (array [], rest)
      | rest => do
        let (elements, rest) ← elements? fuel rest
        return (array elements, rest)
    | '\x7b' :: rest =>
      match skipSpaces rest with
      | '\x7d' :: rest => some (object [], rest)
      | rest => do
        let (fields, rest) ← fields? fuel rest
        return (object fields, rest)
    | text => do
      let (n, rest) ← number? text
      return (number n, rest)

/-- The elements of an array up to its closing bracket. -/
def elements? : (fuel : Nat) → List Char → Option (List Json × List Char)
  | 0, _ => none
  | fuel + 1, text => do
    let (element, rest) ← value? fuel text
    match skipSpaces rest with
    | ']' :: rest => return ([element], rest)
    | ',' :: rest =>
      let (elements, rest) ← elements? fuel rest
      return (element :: elements, rest)
    | _ => none

/-- The fields of an object up to its closing brace. -/
def fields? : (fuel : Nat) → List Char → Option (List (Option String × Json) × List Char)
  | 0, _ => none
  | fuel + 1, text => do
    match skipSpaces text with
    | '"' :: rest =>
      let (name, rest) ← string? rest
      match skipSpaces rest with
      | ':' :: rest =>
        let (value, rest) ← value? fuel rest
        match skipSpaces rest with
        | '\x7d' :: rest => return ([(name, value)], rest)
        | ',' :: rest =>
          let (fields, rest) ← fields? fuel rest
          return ((name, value) :: fields, rest)
        | _ => none
      | _ => none
    | _ => none

end

/-- The value of a document. -/
def parse? (document : String) : Option Json := do
  let text := document.toList
  let (value, rest) ← value? (text.length + 1) text
  if skipSpaces rest = [] then return value else none

/-! ## Reading values -/

/-- A whole number that is written without a sign, a fraction or an exponent. -/
def natural? (limit : Nat) : Json → Option Nat
  | number n => if n.whole && !n.negative && decide (n.digits ≤ limit) then some n.digits else none
  | _ => none

/-- Numbers with more places before the point are too large for any scalar. -/
def largestPlaces : Int := 400

/-- The scalar nearest to a number. One that is too large has none. -/
def scalar? {α : Type} [Scalar α] : Json → Option α
  | number n =>
    let places := ((Nat.toDigits 10 n.digits).length : Int) + n.exponent
    let magnitude : Option α :=
      if n.digits = 0 ∨ places < -largestPlaces then some 0
      else if largestPlaces < places then none
      else some (OfScientific.ofScientific (n.digits * Nat.pow 10 n.exponent.toNat) true
        (-n.exponent).toNat)
    (magnitude.filter Scalar.isFinite).map fun x => if n.negative then -x else x
  | _ => none

/-- Reads a value that may be missing as `null`. -/
def optional? {γ : Type} (read : Json → Option γ) : Json → Option (Option γ)
  | null => some none
  | value => some <$> read value

/-- Reads the elements of an array. -/
def list? {γ : Type} (read : Json → Option γ) : Json → Option (List γ)
  | array elements => elements.mapM read
  | _ => none

/-- The value of a field. A name that is there twice is an error. -/
def field? (fields : List (Option String × Json)) (name : String) : Option (Option Json) :=
  match fields.filter fun field => field.1 == some name with
  | [] => some none
  | [field] => some (some field.2)
  | _ => none

/-- The values of a record's fields: by name from an object, where others are left out, or by place
from an array without more elements than there are names. -/
def record? (names : List String) : Json → Option (List (Option Json))
  | object fields =>
    if fields.all fun field => field.1.isSome then names.mapM (field? fields) else none
  | array elements =>
    if elements.length ≤ names.length then
      some ((List.range names.length).map fun i => elements[i]?)
    else none
  | _ => none

/-- Reads a field that has to be there. -/
def required? {γ : Type} (read : Json → Option γ) (value : Option Json) : Option γ :=
  value.bind read

/-- Reads a field that has a standard value. -/
def withStandard? {γ : Type} (read : Json → Option γ) (standard : γ) : Option Json → Option γ
  | none => some standard
  | some value => read value

end Json

end ZoneSkims
