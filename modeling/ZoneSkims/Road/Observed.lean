import ZoneSkims.Road.LinkFunction

/-!
# Observed travel times

Observed times on links are averaged per time bin. A bin without observations has the time in free
flow, and no bin has less.

* `ObservedTimes.new`: bins of one length for every link.
* `ObservedTimes.observe`: one more traversal of a link.
* `ObservedTimes.travelTime`: the average as a link function.
-/

namespace ZoneSkims

/-- The seconds observed in one bin, and how many observations they are. A bin has fewer than
`2 ^ 32` observations, so that 32 bits are enough to count them. -/
structure Observations (α : Type) where
  total : α
  count : Nat

/-- Observations per link and bin, link by link. Every link has `binCount` bins of `binSize`
seconds. -/
structure ObservedTimes (α : Type) where
  binSize : α
  binCount : Nat
  bins : Array (Observations α)

namespace ObservedTimes

variable {α : Type} [Scalar α]

/-- The number of bins that is too large for any memory. -/
def binLimit : Nat := 1 <<< 59

/-- Empty bins of `binSize` seconds from midnight to `lastTime`, at least one. -/
def new (network : Network α) (binSize lastTime : α) : Checked (ObservedTimes α) :=
  if 0 < binSize then
    let binCount := max (Scalar.ceilNat (lastTime / binSize)) 1
    if binLimit ≤ network.linkCount * binCount then .error .outOfRange
    else .ok { binSize, binCount, bins := Array.replicate (network.linkCount * binCount) ⟨0, 0⟩ }
  else .error .binSize

/-- The bin of a time. Times before midnight and undefined ones are in the first bin, times after
the last bin in the last. -/
def bin (observed : ObservedTimes α) (time : α) : Nat :=
  min (Scalar.truncate (Scalar.max time 0 / observed.binSize)) (observed.binCount - 1)

/-- The place of the bin of a link at a time. -/
def slot (observed : ObservedTimes α) (link : LinkId) (time : α) : Nat :=
  link.index * observed.binCount + observed.bin time

/-- The observations of a link in the bin of a time. -/
def at? (observed : ObservedTimes α) (link : LinkId) (time : α) : Checked (Observations α) :=
  fetch observed.bins (observed.slot link time)

/-- Adds a traversal of a link. One that is negative or not finite is left out. -/
def observe (observed : ObservedTimes α) (link : LinkId) (enterTime travelTime : α) :
    Checked (ObservedTimes α) :=
  if !Scalar.isFinite travelTime || decide (travelTime < 0) then .ok observed
  else do
    let bin ← observed.at? link enterTime
    let bins ← store observed.bins (observed.slot link enterTime)
      ⟨bin.total + travelTime, bin.count + 1⟩
    return { observed with bins }

/-- The number of observations of a link in the bin of a time. -/
def countAt (observed : ObservedTimes α) (link : LinkId) (time : α) : Checked Nat :=
  Observations.count <$> observed.at? link time

/-- The average of a bin, and at least the time in free flow. -/
def average (freeFlow : α) (bin : Observations α) : α :=
  if bin.count = 0 then freeFlow else Scalar.max (bin.total / Scalar.ofNat bin.count) freeFlow

/-- The averages as a link function. -/
def travelTime (observed : ObservedTimes α) (network : Network α) : LinkFunction α where
  value link time := do
    let freeFlow ← network.freeFlowTime link
    let bin ← observed.at? link time
    return average freeFlow bin
  timeInvariant := false

end ObservedTimes

end ZoneSkims
