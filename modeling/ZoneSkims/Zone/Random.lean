import ZoneSkims.Scalar.Binary

/-!
# Random draws

Sampling points are drawn from a stream of 64-bit words, the xoshiro256++ generator. Its state is
spread from a seed by a linear congruential generator with a permuted output, so that every seed
gives a stream of its own and the same seed always the same one.

* `Generator.ofSeed`, `Generator.next`: the stream of a seed.
* `Generator.index`: a position in a list, each equally likely.
* `Generator.fraction`: a number from 0 to below a total.
* `DrawSource`: the two draws that sampling needs, whatever they come from.
-/

namespace ZoneSkims

/-- Draws of random numbers, each of which changes a state. -/
structure DrawSource (α γ : Type) where
  /-- A number that is at least 0 and below a total. -/
  fraction : (total : α) → γ → α × γ
  /-- A number below a count. -/
  index : (count : Nat) → γ → Nat × γ

/-- The state of a stream of words. -/
structure Generator where
  s0 : UInt64
  s1 : UInt64
  s2 : UInt64
  s3 : UInt64

namespace Generator

/-! ## Seeds -/

/-- The state after a state of the congruential generator. -/
def seedStep (state : UInt64) : UInt64 :=
  state * 6364136223846793005 + 11634580027462260723

/-- The word that a state of the congruential generator gives: some of its bits, turned to the
right by a distance that the topmost five give. -/
def seedWord (state : UInt64) : UInt64 :=
  let word := (((state >>> 18) ^^^ state) >>> 27).toUInt32
  let turn := (state >>> 59).toUInt32
  ((word >>> turn) ||| (word <<< ((32 - turn) % 32))).toUInt64

/-- Two words as one, the first as its lower half. -/
def joinWords (low high : UInt64) : UInt64 :=
  low ||| (high <<< 32)

/-- The state that a seed is spread to: eight words in pairs. -/
def ofSeed (seed : UInt64) : Generator :=
  let t1 := seedStep seed
  let t2 := seedStep t1
  let t3 := seedStep t2
  let t4 := seedStep t3
  let t5 := seedStep t4
  let t6 := seedStep t5
  let t7 := seedStep t6
  let t8 := seedStep t7
  { s0 := joinWords (seedWord t1) (seedWord t2)
    s1 := joinWords (seedWord t3) (seedWord t4)
    s2 := joinWords (seedWord t5) (seedWord t6)
    s3 := joinWords (seedWord t7) (seedWord t8) }

/-! ## Words -/

/-- A word turned to the left. -/
def rotateLeft (word : UInt64) (distance : UInt64) : UInt64 :=
  (word <<< distance) ||| (word >>> (64 - distance))

/-- The next word of the stream. -/
def next (g : Generator) : UInt64 × Generator :=
  let word := rotateLeft (g.s0 + g.s3) 23 + g.s0
  let s2 := g.s2 ^^^ g.s0
  let s3 := g.s3 ^^^ g.s1
  (word,
    { s0 := g.s0 ^^^ s3
      s1 := g.s1 ^^^ s2
      s2 := s2 ^^^ (g.s1 <<< 17)
      s3 := rotateLeft s3 45 })

/-! ## Draws -/

/-- The products of a word and a count whose lower half is at most this are kept. They come from a
multiple of `count` words, so that each upper half is equally likely. -/
def acceptanceLimit (count : Nat) : Nat :=
  (count * Nat.pow 2 (63 - count.log2) - 1) % UInt64.size

/-- The upper half of the first product that is kept, or of the last one after `attempts`. More
than half of all words are kept. -/
def indexWithin (count : Nat) : (attempts : Nat) → Generator → Nat × Generator
  | 0, g =>
    let (word, g) := g.next
    (word.toNat * count / UInt64.size, g)
  | attempts + 1, g =>
    let (word, g) := g.next
    let product := word.toNat * count
    if product % UInt64.size ≤ acceptanceLimit count then (product / UInt64.size, g)
    else indexWithin count attempts g

/-- A number below a count, each equally likely. -/
def index (count : Nat) (g : Generator) : Nat × Generator :=
  indexWithin count 1024 g

/-- The largest fraction of 1 that is drawn. -/
def largestFraction : Float := 1 - Float.ofBits 0x3CB0000000000000

/-- The number just below a positive one. -/
def justBelow (x : Float) : Float := Float.ofBits (x.toBits - 1)

/-- The first of `steps` numbers, from `scale` down, that scales every fraction below the total. -/
def scaleBelow (total : Float) : (steps : Nat) → (scale : Float) → Float
  | 0, scale => scale
  | steps + 1, scale =>
    if total ≤ scale * largestFraction then scaleBelow total steps (justBelow scale) else scale

/-- A number from 0 to below a total: the topmost 52 bits of a word as a fraction of it. -/
def fraction (total : Float) (g : Generator) : Float × Generator :=
  let (word, g) := g.next
  ((word >>> 12).toFloat * Float.ofBits 0x3CB0000000000000 * scaleBelow total 64 total, g)

/-- The draws of the stream of a generator. -/
def source : DrawSource Float Generator where
  fraction := fraction
  index := index

end Generator

end ZoneSkims
