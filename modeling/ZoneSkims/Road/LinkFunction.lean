import ZoneSkims.Road.Network

/-!
# Link functions

A link function gives the travel time or the cost of a link for the time of day at which it is
entered. A search requires finite values that are not negative. Cost can differ from time, and then
the cheapest path is sought and its travel time reported.

* `LinkFunction.freeFlow`: the time in free flow.
* `LinkFunction.timeCost`: the travel time as cost.
* `LinkFunction.timeDistanceCost`: a weighted sum of time and length.
-/

namespace ZoneSkims

/-- A quantity of each link at each time of day. -/
structure LinkFunction (α : Type) where
  value : LinkId → α → Checked α
  /-- The value never depends on the time. -/
  timeInvariant : Bool

variable {α : Type} [Scalar α]

/-- The least speed at which a link is travelled, so that every time is finite. -/
def minimumSpeed : α := 0.1

/-- Length divided by speed. -/
def Link.freeFlowTime (link : Link α) : α :=
  link.length / Scalar.max link.freeSpeed minimumSpeed

/-- The time on a link in free flow. -/
def Network.freeFlowTime (network : Network α) (id : LinkId) : Checked α :=
  Link.freeFlowTime <$> network.link id

namespace LinkFunction

/-- The time in free flow, at any time of day. -/
def freeFlow (network : Network α) : LinkFunction α where
  value link _ := network.freeFlowTime link
  timeInvariant := true

/-- A cost equal to the travel time. -/
def timeCost (travelTime : LinkFunction α) : LinkFunction α where
  value link time := travelTime.value link time
  timeInvariant := travelTime.timeInvariant

/-- A cost per second of travel and per metre of length. -/
def timeDistanceCost (network : Network α) (travelTime : LinkFunction α) (perSecond perMetre : α) :
    LinkFunction α where
  value link time := do
    let seconds ← travelTime.value link time
    let traits ← network.link link
    return perSecond * seconds + perMetre * traits.length
  timeInvariant := travelTime.timeInvariant

end LinkFunction

end ZoneSkims
