import Mathlib.Order.Bounds.Defs
import ZoneSkims.Proofs.Scalar.Sorting
import ZoneSkims.Proofs.Transit.Drafting
import ZoneSkims.Proofs.Transit.Trips

/-!
# The trip that a rider boards

The starts of a route's trips are put in order when the route is accepted, and adding the same
seconds to two starts keeps their order although the sums are rounded. So no trip overtakes another
at any position, the trips that leave a position early are the first ones, and bisection finds the
first of the others. Equal starts, and starts given in any order, make no difference.

* `Route.tripsAfter`: the trips that a rider who is ready at some time can still catch.
* `Route.Orderly`: trips that do not overtake, with the first one to catch at each position.
* `TimetableDraft.orderly_of_addRoute`: every accepted route is orderly.
-/

namespace ZoneSkims

variable {α : Type} [Scalar α]

namespace Route

/-- The trips that leave a position at a time or later. -/
def tripsAfter (route : Route α) (position : Nat) (ready : α) : Set Nat :=
  {trip | ∃ time, route.departureAt trip position = .ok time ∧ ready ≤ time}

/-- Every trip calls at every position, no trip overtakes one before it or runs back in time, and at
every position the first trip is found that leaves at a time or later, if there is one. -/
structure Orderly (route : Route α) : Prop where
  calls : ∀ trip < route.tripCount, ∀ position < route.stopCount, ∃ arrival departure,
    route.arrivalAt trip position = .ok arrival ∧
      route.departureAt trip position = .ok departure ∧ arrival ≤ departure
  arrivalAt_mono : ∀ {trip other position : Nat} {time time' : α}, trip ≤ other →
    route.arrivalAt trip position = .ok time → route.arrivalAt other position = .ok time' →
      time ≤ time'
  departureAt_mono : ∀ {trip other position : Nat} {time time' : α}, trip ≤ other →
    route.departureAt trip position = .ok time → route.departureAt other position = .ok time' →
      time ≤ time'
  departureAt_le_arrivalAt : ∀ {trip position later : Nat} {time time' : α}, position < later →
    route.departureAt trip position = .ok time → route.arrivalAt trip later = .ok time' →
      time ≤ time'
  earliestTrip : ∀ position < route.stopCount, ∀ ready, Scalar.IsNumber ready →
    ∃ found, route.earliestTrip position ready = .ok found ∧
      (∀ trip, found = some trip ↔ IsLeast (route.tripsAfter position ready) trip) ∧
      (found = none ↔
        ∀ trip < route.tripCount, ∀ time, route.departureAt trip position = .ok time →
          time < ready)

namespace Sound

variable [LawfulScalar α] {n : Nat} {route : Route α}

theorem exists_times (h : route.Sound n) {trip position : Nat} (htrip : trip < route.tripCount)
    (hposition : position < route.stopCount) : ∃ arrival departure,
      route.arrivalAt trip position = .ok arrival ∧
        route.departureAt trip position = .ok departure ∧ arrival ≤ departure := by
  have hstart : route.departures[trip]? = some _ := Array.getElem?_eq_getElem htrip
  have hcall : route.calls[position]? = some _ := Array.getElem?_eq_getElem hposition
  refine ⟨_, _, arrivalAt_eq_ok.mpr ⟨_, _, hstart, hcall, rfl⟩,
    departureAt_eq_ok.mpr ⟨_, _, hstart, hcall, rfl⟩, ?_⟩
  exact Scalar.add_le_add_left (h.isFinite_of_getElem? hstart)
    (h.call_sound_of_getElem? hcall).arrival_le_departure

/-- The trip that is found is the first of those that can be caught. -/
theorem earliestTrip_isLeast (h : route.Sound n) {position : Nat}
    (hposition : position < route.stopCount) {ready : α} (hready : Scalar.IsNumber ready) :
    ∃ found, route.earliestTrip position ready = .ok found ∧
      (∀ trip, found = some trip ↔ IsLeast (route.tripsAfter position ready) trip) ∧
      (found = none ↔
        ∀ trip < route.tripCount, ∀ time, route.departureAt trip position = .ok time →
          time < ready) := by
  obtain ⟨found, hfound, hcatches, hfirst⟩ := h.earliestTrip hposition hready
  refine ⟨found, hfound, fun trip => ⟨?_, ?_⟩, ?_, ?_⟩
  · rintro rfl
    refine ⟨hcatches trip rfl, ?_⟩
    rintro other ⟨time, htime, hcatch⟩
    obtain ⟨first, hsome, hle⟩ := hfirst other time htime hcatch
    cases hsome
    exact hle
  · rintro ⟨⟨time, htime, hcatch⟩, hleast⟩
    obtain ⟨first, rfl, hle⟩ := hfirst trip time htime hcatch
    exact congrArg some (Nat.le_antisymm hle (hleast (hcatches first rfl)))
  · rintro rfl trip - time htime
    refine Scalar.lt_of_not_le hready (h.isNumber_departureAt htime) fun hcatch => ?_
    obtain ⟨first, hsome, -⟩ := hfirst trip time htime hcatch
    cases hsome
  · intro hearly
    cases found with
    | none => rfl
    | some trip =>
      obtain ⟨time, htime, hcatch⟩ := hcatches trip rfl
      obtain ⟨start, call, hstart, -⟩ := departureAt_eq_ok.mp htime
      have htrip : trip < route.tripCount := (Array.getElem?_eq_some_iff.mp hstart).1
      exact absurd (hearly trip htrip time htime) (Scalar.not_lt_of_le hcatch)

theorem orderly (h : route.Sound n) : route.Orderly where
  calls _ htrip _ hposition := h.exists_times htrip hposition
  arrivalAt_mono hle htime hother := h.arrivalAt_mono htime hother hle
  departureAt_mono hle htime hother := h.departureAt_mono htime hother hle
  departureAt_le_arrivalAt hlt htime hlater := h.departureAt_le_arrivalAt htime hlater hlt
  earliestTrip _ hposition _ hready := h.earliestTrip_isLeast hposition hready

end Sound

end Route

namespace TimetableDraft

/-- An accepted route is the last one of the draft. It has the calls that were given and a trip for
every start that was given, and it is orderly. -/
theorem orderly_of_addRoute [LawfulScalar α] {draft next : TimetableDraft α} {line : String}
    {mode : Mode} {calls : List (Call α)} {departures : List α} {id : RouteId}
    (h : draft.addRoute line mode calls departures = .ok (id, next)) :
    ∃ route : Route α, next.routes = draft.routes.push route ∧ route.calls.toList = calls ∧
      route.departures.toList.Perm departures ∧ route.Orderly := by
  obtain ⟨route, hsound, hnext⟩ := sound_of_addRoute h
  obtain ⟨places, -, hgiven⟩ := eq_of_addRoute h
  have hroutes := congrArg TimetableDraft.routes (hnext.symm.trans hgiven)
  obtain rfl := (Array.push_eq_push.mp hroutes).1
  exact ⟨_, congrArg TimetableDraft.routes hnext, rfl, List.mergeSort_perm .., hsound.orderly⟩

end TimetableDraft

/-- Two stops of a night bus. -/
def nightStops : TimetableDraft Float :=
  { TimetableDraft.empty with stops := #[⟨0, 0⟩, ⟨800, 0⟩] }

/-- A bus that waits half a minute at the second stop. -/
def nightCalls : List (Call Float) := [⟨⟨0⟩, 0, 0, none⟩, ⟨⟨1⟩, 60, 90, some 800⟩]

/-- The route of the bus. -/
def nightRoute : Route Float :=
  { line := "N", mode := .bus
    calls := nightCalls.toArray, departures := #[100, 100, 500], mileage := #[0, 0 + 800] }

/-- Two trips start at the same time, and the starts are given out of order. -/
theorem addRoute_nightBus : nightStops.addRoute "N" .bus nightCalls [500, 100, 100] =
    .ok (⟨0⟩, { nightStops with routes := nightStops.routes.push nightRoute }) := by
  have hperm : ([500] ++ [100, 100] : List Float).Perm ([100, 100] ++ [500]) :=
    List.perm_append_comm
  have hsorted : ([500, 100, 100] : List Float).mergeSort Scalar.orderedLe = [100, 100, 500] :=
    (Scalar.mergeSort_eq_of_perm hperm).trans (List.mergeSort_of_pairwise (by decide +kernel))
  have hroute : nightRoute = { nightRoute with
      departures := (([500, 100, 100] : List Float).mergeSort Scalar.orderedLe).toArray } := by
    rw [hsorted]
    rfl
  rw [hroute]
  rfl

theorem orderly_of_addRoute_nightBus :
    nightStops.addRoute "N" .bus nightCalls [500, 100, 100] =
        .ok (⟨0⟩, { nightStops with routes := nightStops.routes.push nightRoute }) ∧
      nightRoute.Orderly ∧ nightRoute.earliestTrip 1 190 = .ok (some 0) ∧
      nightRoute.earliestTrip 1 190.5 = .ok (some 2) ∧
      nightRoute.earliestTrip 1 Scalar.infinity = .ok none := by
  obtain ⟨route, hroutes, -, -, horderly⟩ :=
    TimetableDraft.orderly_of_addRoute addRoute_nightBus
  obtain rfl : nightRoute = route := (Array.push_eq_push.mp hroutes).1
  exact ⟨addRoute_nightBus, horderly, rfl, rfl, rfl⟩

end ZoneSkims
