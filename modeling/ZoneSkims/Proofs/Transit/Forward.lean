import ZoneSkims.Proofs.Scalar.Exact
import ZoneSkims.Proofs.Transit.Mileage

/-!
# Timetables lead forward

A route of a built timetable never runs back in time, the metres from its first call never become
fewer, and no walk arrives before it starts. This holds of timetables of any size, even where ids no
longer tell all stops apart. Lengths may be infinite or undefined, where places of stops are.

* `Timetable.Forward`: what the routes and the walks of a timetable keep.
* `TimetableDraft.Drafted.forward_build`: every built timetable keeps it.
-/

namespace ZoneSkims

open Exact

variable {K : Type} [Field K] [LinearOrder K]

/-! ## Routes -/

/-- The metres from the first call to each call never become fewer. -/
def Route.Ascends (route : Route (Exact K)) : Prop :=
  route.mileage.toList.Pairwise fun first last => ¬ last - first < 0

namespace Route

variable {route : Route (Exact K)} {n trip position : Nat} {time : Exact K}

theorem Ascends.not_lt_zero (h : route.Ascends) {start finish : Nat} {metres : Exact K}
    (hmetres : route.metresBetween start finish = .ok metres) (hlt : start < finish) :
    ¬ metres < 0 := by
  obtain ⟨first, last, hle, rfl⟩ := exists_mileage h hmetres hlt
  exact hle

/-- Where later mileages are not less, differences of mileages are not negative. -/
theorem Lengthens.ascends [IsStrictOrderedRing K] (h : route.Lengthens) : route.Ascends := by
  refine List.Pairwise.imp (fun {first last} hle hnegative => ?_) h
  have hless := LawfulSign.lt_of_sub_lt_zero hnegative
  exact Scalar.not_lt_of_le (hle (Scalar.isNumber_left (Scalar.le_of_lt hless))) hless

theorem Sound.isFinite_departureAt (h : route.Sound n)
    (htime : route.departureAt trip position = .ok time) : Scalar.isFinite time = true := by
  obtain ⟨start, call, hstart, hcall, rfl⟩ := departureAt_eq_ok.mp htime
  exact isFinite_add (h.isFinite_of_getElem? hstart)
    (h.call_sound_of_getElem? hcall).isFinite_departure

theorem Sound.isFinite_arrivalAt (h : route.Sound n)
    (htime : route.arrivalAt trip position = .ok time) : Scalar.isFinite time = true := by
  obtain ⟨start, call, hstart, hcall, rfl⟩ := arrivalAt_eq_ok.mp htime
  exact isFinite_add (h.isFinite_of_getElem? hstart)
    (h.call_sound_of_getElem? hcall).isFinite_arrival

end Route

/-- What the routes and the walks of a timetable keep, of whatever size it is. -/
structure Timetable.Forward (timetable : Timetable (Exact K)) : Prop where
  route_sound : ∀ {id : RouteId} {route : Route (Exact K)},
    timetable.route id = .ok route → ∃ stopCount, route.Sound stopCount
  ascends : ∀ {id : RouteId} {route : Route (Exact K)},
    timetable.route id = .ok route → route.Ascends
  walkTime : ∀ {stop : StopId} {transfers : List (Transfer (Exact K))},
    timetable.transfersFrom stop = .ok transfers → ∀ transfer ∈ transfers, ¬ transfer.walkTime < 0

namespace TimetableDraft

variable [IsStrictOrderedRing K]

/-! ## Drafts -/

/-- What the routes and the walks of a draft keep. -/
structure Forward (draft : TimetableDraft (Exact K)) : Prop where
  route_sound : ∀ route ∈ draft.routes, ∃ stopCount, route.Sound stopCount
  ascends : ∀ route ∈ draft.routes, route.Ascends
  walkTime : ∀ walk ∈ draft.transfers, ¬ walk.2.walkTime < 0

theorem Drafted.forward {draft : TimetableDraft (Exact K)} (h : Drafted draft) :
    draft.Forward :=
  ⟨fun route hroute => ⟨_, h.route_sound route hroute⟩,
    fun route hroute => (h.lengthens route hroute).ascends, h.not_walkTime_lt_zero⟩

omit [Field K] [LinearOrder K] [IsStrictOrderedRing K] in
theorem size_byStop {γ : Type} (stopCount : Nat) (xs : List (StopId × γ)) :
    (byStop stopCount xs).size = stopCount := by
  have hkept : ∀ groups : Array (Array γ),
      (xs.foldl (fun groups x => groups.modify x.1.index (·.push x.2)) groups).size =
        groups.size := by
    induction xs with
    | nil => exact fun _ => rfl
    | cons x xs ih => exact fun groups => (ih _).trans Array.size_modify
  exact (hkept _).trans Array.size_replicate

/-- Every built timetable leads forward. -/
theorem Drafted.forward_build {draft : TimetableDraft (Exact K)} {timetable : Timetable (Exact K)}
    (h : Drafted draft) (hbuild : draft.build = .ok timetable) : timetable.Forward := by
  unfold build at hbuild
  obtain ⟨_, -, hbuild⟩ := bind_eq_ok.mp hbuild
  cases hbuild
  have hforward := h.forward
  refine ⟨fun hroute => hforward.route_sound _ (Array.mem_of_getElem? (fetch_eq_ok.mp hroute)),
    fun hroute => hforward.ascends _ (Array.mem_of_getElem? (fetch_eq_ok.mp hroute)),
    fun {stop transfers} htransfers transfer hmem => ?_⟩
  rw [Timetable.transfersFrom, map_eq_pure_bind, bind_eq_ok] at htransfers
  obtain ⟨group, hgroup, hlist⟩ := htransfers
  cases hlist
  have hgroup := fetch_eq_ok.mp hgroup
  have hlt := (Array.getElem?_eq_some_iff.mp hgroup).1
  rw [size_byStop] at hlt
  cases (getElem?_byStop hlt _).symm.trans hgroup
  obtain ⟨walk, hwalk, rfl⟩ := List.mem_map.mp hmem
  exact hforward.walkTime walk (Array.mem_toList_iff.mp (List.mem_filter.mp hwalk).1)

end TimetableDraft

end ZoneSkims
