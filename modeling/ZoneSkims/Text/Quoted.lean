import ZoneSkims.Text.Unprintable

/-!
# Quoted text

A text in quotes shows every character, also those without a picture of their own. The quotation
mark and the backslash follow a backslash, four controls have a letter, and other characters that
cannot be seen stand as their number in braces.

* `quote`: a text in quotes.
-/

namespace ZoneSkims

/-- A number in base sixteen. -/
def hexText (n : Nat) : List Char := Nat.toDigits 16 n

/-- A character inside quotes. -/
def quoteChar (c : Char) : List Char :=
  match c with
  | '"' => ['\\', '"']
  | '\\' => ['\\', '\\']
  | '\n' => ['\\', 'n']
  | '\t' => ['\\', 't']
  | '\r' => ['\\', 'r']
  | '\x00' => ['\\', '0']
  | _ => if isUnprintable c then ['\\', 'u', '\x7b'] ++ hexText c.toNat ++ ['\x7d'] else [c]

/-- A text in quotes. -/
def quote (text : String) : String :=
  String.ofList (('"' :: text.toList.flatMap quoteChar) ++ ['"'])

end ZoneSkims
