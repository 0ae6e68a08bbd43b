import ZoneSkims.Proofs.Transit.Arrivals
import ZoneSkims.Proofs.Transit.Forward

/-!
# Coherent arrivals

What an arrival states of the way to a stop fits together: walk to the first stop and rides are no
longer than the whole way, trains are a part of all vehicles, and there are no more rides than
rounds. A ride and a walk keep this, and so it holds of all arrivals that come about by them.

* `Exact.IsPart`: a part of a whole that is not negative.
* `Arrival.Coherent`: the figures of an arrival fit together.
* `TransitRouter.coherent_of_tree`: all arrivals of a tree do.
-/

namespace ZoneSkims

open Exact

variable {K : Type} [Field K] [LinearOrder K]

/-! ## Parts of a whole -/

namespace Exact

theorem add_eq_finite {a b : Exact K} {z : K} (h : a + b = finite z) :
    ∃ x y, a = finite x ∧ b = finite y ∧ x + y = z := by
  cases a with
  | finite x =>
    cases b with
    | finite y => exact ⟨x, y, rfl, rfl, Exact.finite.inj h⟩
    | _ => cases h
  | _ => cases b <;> cases h

/-- A part of a whole that is not negative. Nothing is said of the part of an infinite or undefined
whole. -/
structure IsPart (part whole : Exact K) : Prop where
  not_lt_zero : ¬ whole < 0
  le : ∀ y, whole = finite y → ∃ x, part = finite x ∧ 0 ≤ x ∧ x ≤ y

theorem IsPart.zero : IsPart (0 : Exact K) 0 := by
  refine ⟨finite_not_lt_zero.mpr le_rfl, fun y hy => ⟨0, rfl, le_rfl, ?_⟩⟩
  exact (Exact.finite.inj hy).le

variable [IsStrictOrderedRing K]

theorem not_add_lt_zero {a b : Exact K} (ha : ¬ a < 0) (hb : ¬ b < 0) : ¬ a + b < 0 := by
  rcases not_lt_zero_iff.mp ha with rfl | rfl | ⟨x, rfl, hx⟩
  · cases b <;> exact nofun
  · cases b <;> exact nofun
  · rcases not_lt_zero_iff.mp hb with rfl | rfl | ⟨y, rfl, hy⟩
    · exact nofun
    · exact nofun
    · exact finite_not_lt_zero.mpr (add_nonneg hx hy)

/-- What is added to a whole is added to the part or not. -/
theorem IsPart.add {part whole c : Exact K} (h : IsPart part whole) (hc : ¬ c < 0) (all : Bool) :
    IsPart (if all then part + c else part) (whole + c) := by
  refine ⟨not_add_lt_zero h.not_lt_zero hc, fun y hy => ?_⟩
  obtain ⟨w, z, hw, rfl, rfl⟩ := add_eq_finite hy
  obtain ⟨x, rfl, hx, hle⟩ := h.le w hw
  have hz : 0 ≤ z := finite_not_lt_zero.mp hc
  cases all with
  | true => exact ⟨x + z, rfl, add_nonneg hx hz, add_le_add_left hle z⟩
  | false => exact ⟨x, rfl, hx, hle.trans (le_add_of_nonneg_right hz)⟩

end Exact

/-! ## Arrivals -/

/-- The figures of an arrival of at most so many rides fit together. -/
structure Arrival.Coherent (departure : K) (rides : Nat) (label : Arrival (Exact K)) : Prop where
  legs_le : label.legs ≤ rides
  times : ∃ access ride time : K, label.accessTime = finite access ∧
    label.inVehicleTime = finite ride ∧ label.time = finite time ∧ departure + access + ride ≤ time
  trainTime : IsPart label.trainTime label.inVehicleTime
  trainDistance : IsPart label.trainDistance label.inVehicleDistance

namespace Arrival.Coherent

variable {departure : K} {rides : Nat} {label : Arrival (Exact K)}

theorem mono {more : Nat} (h : label.Coherent departure rides) (hle : rides ≤ more) :
    label.Coherent departure more :=
  { h with legs_le := h.legs_le.trans hle }

theorem entered {walkTime : Exact K}
    (hreached : Scalar.isFinite (finite departure + walkTime) = true) :
    { Arrival.unreached with time := finite departure + walkTime, accessTime := walkTime }.Coherent
      departure 0 := by
  obtain ⟨time, htime⟩ := eq_finite_of_isFinite hreached
  obtain ⟨_, access, hdeparture, rfl, rfl⟩ := add_eq_finite htime
  cases hdeparture
  exact ⟨Nat.le_refl 0, ⟨access, 0, _, rfl, rfl, rfl, (add_zero _).le⟩, .zero, .zero⟩

variable [IsStrictOrderedRing K]

/-- A ride takes the time from its departure to its arrival, and follows the way so far. -/
theorem ride (h : label.Coherent departure rides) {boarded time : K} {metres : Exact K}
    (hcatch : label.time ≤ finite boarded) (hforward : boarded ≤ time) (hmetres : ¬ metres < 0)
    (train : Bool) :
    (label.ride (finite time) (finite time - finite boarded) metres train).Coherent departure
      (rides + 1) := by
  obtain ⟨access, before, ready, haccess, hbefore, hready, hle⟩ := h.times
  rw [hready, finite_le] at hcatch
  have hride : ¬ (finite time - finite boarded : Exact K) < 0 := by
    rw [finite_sub, finite_not_lt_zero]
    exact sub_nonneg.mpr hforward
  refine ⟨Nat.succ_le_succ h.legs_le, ⟨access, before + (time - boarded), time, haccess, ?_, rfl,
    ?_⟩, h.trainTime.add hride train, h.trainDistance.add hmetres train⟩
  · rw [Arrival.ride, hbefore, finite_sub]
    rfl
  · linarith

theorem walk (h : label.isReached = true → label.Coherent departure rides) {walkTime : Exact K}
    (hwalk : ¬ walkTime < 0) (hreached : Scalar.isFinite (label.time + walkTime) = true) :
    { label with time := label.time + walkTime }.Coherent departure rides := by
  obtain ⟨time, htime⟩ := eq_finite_of_isFinite hreached
  obtain ⟨_, walk, hready', rfl, rfl⟩ := add_eq_finite htime
  have h := h (hready' ▸ rfl : Scalar.isFinite label.time = true)
  obtain ⟨access, ride, ready, haccess, hride, hready, hle⟩ := h.times
  cases hready.symm.trans hready'
  have hwalk : 0 ≤ walk := finite_not_lt_zero.mp hwalk
  exact { h with times := ⟨access, ride, _, haccess, hride, htime, by linarith⟩ }

end Arrival.Coherent

/-! ## Trees -/

namespace TransitRouter

variable [IsStrictOrderedRing K] {router : TransitRouter (Exact K)} {departure : K}

/-- What comes about by walks and rides is coherent where it is reached. -/
theorem Possible.coherent (htimetable : router.timetable.Forward) {label : Arrival (Exact K)}
    (h : router.Possible (finite departure) label) (hreached : label.isReached = true) :
    label.Coherent departure label.legs := by
  induction h with
  | unreached => cases hreached
  | enter walkTime => exact .entered hreached
  | @ride label leg source target train _ hbefore hruns hready _ _ ih =>
    obtain ⟨stopCount, hsound⟩ := htimetable.route_sound hruns.route
    obtain ⟨start, hstart⟩ := eq_finite_of_isFinite (hsound.isFinite_departureAt hruns.departure)
    obtain ⟨arrival, harrival⟩ := eq_finite_of_isFinite (hsound.isFinite_arrivalAt hruns.arrival)
    have hcatch : label.time ≤ leg.departure := hready ▸ hruns.catches
    have hforward := hsound.departureAt_le_arrivalAt hruns.departure hruns.arrival hruns.forward
    have hmetres := (htimetable.ascends hruns.route).not_lt_zero hruns.metres hruns.forward
    rw [hstart] at hcatch hforward
    rw [harrival, finite_le] at hforward
    rw [hstart, harrival]
    exact (ih hbefore).ride hcatch hforward hmetres train
  | walk _ htransfers htransfer ih =>
    exact .walk ih (htimetable.walkTime htransfers _ htransfer) hreached

/-- Every arrival of a tree is coherent, with at most as many rides as there may be rounds. -/
theorem coherent_of_tree (htimetable : router.timetable.Forward)
    (access : List (NearStop (Exact K))) :
    Ok (router.tree access (finite departure)) fun tree =>
      ∀ (stop : StopId) (label : Arrival (Exact K)), tree.arrival? stop = some label →
        label.Coherent departure router.parameters.maxRounds := by
  refine (possible_of_tree htimetable.route_sound access (finite departure)).mono ?_
  intro tree hpossible stop label hlabel
  obtain ⟨hknown, hreached⟩ := Option.filter_eq_some_iff.mp hlabel
  obtain ⟨hlabel, hlegs⟩ := hpossible label (Array.mem_of_getElem? hknown)
  exact (hlabel.coherent htimetable hreached).mono hlegs

end TransitRouter

end ZoneSkims
