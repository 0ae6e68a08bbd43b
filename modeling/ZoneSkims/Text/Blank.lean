/-!
# Blanks and separators

Texts are read as lists of characters. A blank is any character with the white-space property, not
only those below 128.

* `isBlank`, `trim`: blanks, and a text without those at its ends.
* `splitAt`: the parts of a text between separators, empty parts included.
-/

namespace ZoneSkims

/-- The characters with the white-space property. -/
def isBlank (c : Char) : Bool :=
  let n := c.toNat
  (9 ≤ n && n ≤ 13) || n == 0x20 || n == 0x85 || n == 0xA0 || n == 0x1680 ||
    (0x2000 ≤ n && n ≤ 0x200A) || n == 0x2028 || n == 0x2029 || n == 0x202F || n == 0x205F ||
    n == 0x3000

/-- The text without the blanks at its ends. -/
def trim (text : List Char) : List Char :=
  ((text.dropWhile isBlank).reverse.dropWhile isBlank).reverse

/-- The parts of a text between the separators. There is one part more than separators. -/
def splitAt (separator : Char) : List Char → List (List Char)
  | [] => [[]]
  | c :: rest =>
    if c = separator then [] :: splitAt separator rest
    else
      match splitAt separator rest with
      | [] => [[c]]
      | part :: parts => (c :: part) :: parts

theorem splitAt_ne_nil (separator : Char) (text : List Char) : splitAt separator text ≠ [] := by
  cases text with
  | nil => simp [splitAt]
  | cons c rest =>
    simp only [splitAt]
    split
    · simp
    · split <;> simp

/-- A separator in between makes a new part: splitting is undone by joining. -/
theorem splitAt_join (separator : Char) (text : List Char) :
    [separator].intercalate (splitAt separator text) = text := by
  induction text with
  | nil => simp [splitAt, List.intercalate]
  | cons c rest ih =>
    simp only [splitAt]
    split
    · next h =>
      cases hs : splitAt separator rest with
      | nil => exact absurd hs (splitAt_ne_nil _ _)
      | cons part parts =>
        rw [hs] at ih
        simp [List.intercalate, List.intersperse, h] at ih ⊢
        exact ih
    · split
      · next hs => exact absurd hs (splitAt_ne_nil _ _)
      · next part parts hs =>
        rw [hs] at ih
        cases parts <;> simp_all [List.intercalate, List.intersperse]

end ZoneSkims
