import Mathlib.Data.List.Perm.Subperm
import ZoneSkims.Proofs.Transit.Trips
import ZoneSkims.Transit.Router

/-!
# Journeys

A journey walks from the place of departure to a stop, and then takes one leg after the other. A leg
is a ride, which may be followed by one walk. Journeys are said of the timetable alone: nothing in
their definition depends on how they are searched.

* `Leg.Runs`: the timetable offers the ride of a leg.
* `Journey`: the legs lead from a stop near the place of departure to a stop, at a time.
* `Arrival.Totals`: what an arrival states is what the legs add up to.
* `Journey.exists_loopless`: a journey without walks between its rides can be made with fewer rides
  than there are stops, and without being later.
-/

namespace ZoneSkims

/-- A ride, and the walk after it if there is one. -/
structure Leg (α : Type) where
  id : RouteId
  route : Route α
  trip : Nat
  /-- The positions at which the trip is boarded and left. -/
  boarding : Nat
  alighting : Nat
  /-- When the rider comes to the stop of boarding. -/
  ready : α
  departure : α
  arrival : α
  metres : α
  walk : Option (Transfer α)

variable {α : Type} [Scalar α]

namespace Leg

/-- A trip of the timetable makes the ride from a stop to a later one, and leaves when the rider is
there. -/
structure Runs (timetable : Timetable α) (leg : Leg α) (source target : StopId) : Prop where
  route : timetable.route leg.id = .ok leg.route
  boards : ∃ call, leg.route.calls[leg.boarding]? = some call ∧ call.stop = source
  alights : ∃ call, leg.route.calls[leg.alighting]? = some call ∧ call.stop = target
  forward : leg.boarding < leg.alighting
  departure : leg.route.departureAt leg.trip leg.boarding = .ok leg.departure
  arrival : leg.route.arrivalAt leg.trip leg.alighting = .ok leg.arrival
  metres : leg.route.metresBetween leg.boarding leg.alighting = .ok leg.metres
  catches : leg.ready ≤ leg.departure

/-- The seconds in vehicles. -/
def rideTime (legs : List (Leg α)) : α :=
  legs.foldl (fun total leg => total + (leg.arrival - leg.departure)) 0

/-- The metres in vehicles. -/
def rideMetres (legs : List (Leg α)) : α :=
  legs.foldl (fun total leg => total + leg.metres) 0

end Leg

/-- The legs lead from one of the stops near the place of departure to a stop, and reach it at a
time. A walk is never followed by another one. -/
inductive Journey (timetable : Timetable α) (access : List (NearStop α)) (departure : α) :
    NearStop α → List (Leg α) → StopId → α → Prop
  | enter {a : NearStop α} (hnear : a ∈ access) :
      Journey timetable access departure a [] a.stop (departure + a.walkTime)
  | ride {a : NearStop α} {legs : List (Leg α)} {leg : Leg α} {source target : StopId} {time : α}
      (hbefore : Journey timetable access departure a legs source time)
      (hruns : leg.Runs timetable source target) (hready : leg.ready = time)
      (hwalk : leg.walk = none) :
      Journey timetable access departure a (legs ++ [leg]) target leg.arrival
  | rideAndWalk {a : NearStop α} {legs : List (Leg α)} {leg : Leg α} {source target : StopId}
      {time : α} {transfer : Transfer α} {transfers : List (Transfer α)}
      (hbefore : Journey timetable access departure a legs source time)
      (hruns : leg.Runs timetable source target) (hready : leg.ready = time)
      (hwalk : leg.walk = some transfer)
      (htransfers : timetable.transfersFrom target = .ok transfers)
      (htransfer : transfer ∈ transfers) :
      Journey timetable access departure a (legs ++ [leg]) transfer.target
        (leg.arrival + transfer.walkTime)

/-- Every change of vehicle is at one stop. -/
def Unwalked (legs : List (Leg α)) : Prop := ∀ leg ∈ legs, leg.walk = none

/-- What an arrival states of the way to a stop is what the legs add up to, in their order. -/
structure Arrival.Totals (isTrain : Route α → Bool) (arrival : Arrival α) (a : NearStop α)
    (legs : List (Leg α)) : Prop where
  accessTime : arrival.accessTime = a.walkTime
  legCount : arrival.legs = legs.length
  inVehicleTime : arrival.inVehicleTime = Leg.rideTime legs
  inVehicleDistance : arrival.inVehicleDistance = Leg.rideMetres legs
  trainTime : arrival.trainTime = Leg.rideTime (legs.filter fun leg => isTrain leg.route)
  trainDistance :
    arrival.trainDistance = Leg.rideMetres (legs.filter fun leg => isTrain leg.route)

omit [Scalar α] in
theorem unwalked_concat {legs : List (Leg α)} {leg : Leg α} :
    Unwalked (legs ++ [leg]) ↔ Unwalked legs ∧ leg.walk = none := by
  constructor
  · exact fun h => ⟨fun l hl => h l (List.mem_append_left _ hl),
      h leg (List.mem_append_right _ (List.mem_singleton.mpr rfl))⟩
  · rintro ⟨h, hleg⟩ l hl
    rcases List.mem_append.mp hl with hl | hl
    · exact h l hl
    · exact List.mem_singleton.mp hl ▸ hleg

namespace Leg

theorem rideTime_concat (legs : List (Leg α)) (leg : Leg α) :
    rideTime (legs ++ [leg]) = rideTime legs + (leg.arrival - leg.departure) := by
  simp [rideTime]

theorem rideMetres_concat (legs : List (Leg α)) (leg : Leg α) :
    rideMetres (legs ++ [leg]) = rideMetres legs + leg.metres := by
  simp [rideMetres]

end Leg

/-- One more ride adds to the totals what the leg takes. -/
theorem Arrival.Totals.ride {isTrain : Route α → Bool} {arrival : Arrival α} {a : NearStop α}
    {legs : List (Leg α)} (h : arrival.Totals isTrain a legs) (leg : Leg α) (time : α) :
    (arrival.ride time (leg.arrival - leg.departure) leg.metres (isTrain leg.route)).Totals
      isTrain a (legs ++ [leg]) := by
  constructor
  · exact h.accessTime
  · simp [Arrival.ride, h.legCount]
  · simp [Arrival.ride, h.inVehicleTime, Leg.rideTime_concat]
  · simp [Arrival.ride, h.inVehicleDistance, Leg.rideMetres_concat]
  · cases htrain : isTrain leg.route <;>
      simp [Arrival.ride, h.trainTime, Leg.rideTime_concat, htrain]
  · cases htrain : isTrain leg.route <;>
      simp [Arrival.ride, h.trainDistance, Leg.rideMetres_concat, htrain]

section Journey

variable {timetable : Timetable α} {access : List (NearStop α)} {departure time : α}
  {a : NearStop α} {legs : List (Leg α)} {stop : StopId}

theorem Journey.mem_access (h : Journey timetable access departure a legs stop time) :
    a ∈ access := by
  induction h with
  | enter hnear => exact hnear
  | ride _ _ _ _ ih => exact ih
  | rideAndWalk _ _ _ _ _ _ ih => exact ih

/-- Without transfers in the timetable nobody walks between rides. -/
theorem Journey.unwalked (h : Journey timetable access departure a legs stop time)
    (hnone : ∀ stop transfers, timetable.transfersFrom stop = .ok transfers → transfers = []) :
    Unwalked legs := by
  induction h with
  | enter _ => exact fun _ hleg => absurd hleg List.not_mem_nil
  | ride _ _ _ hwalk ih => exact unwalked_concat.mpr ⟨ih, hwalk⟩
  | rideAndWalk _ _ _ _ htransfers htransfer _ =>
    rw [hnone _ _ htransfers] at htransfer
    exact absurd htransfer List.not_mem_nil

end Journey

namespace Leg.Runs

variable [LawfulScalar α] {timetable : Timetable α} {leg : Leg α} {source target : StopId}

omit [LawfulScalar α] in
/-- A rider who comes earlier can take the same trip. -/
theorem of_ready_le [LawfulScalar α] (h : leg.Runs timetable source target) {ready : α}
    (hready : ready ≤ leg.ready) : Leg.Runs timetable { leg with ready } source target :=
  { h with catches := Scalar.le_trans hready h.catches }

theorem departure_le_arrival (h : leg.Runs timetable source target) (htimetable : timetable.Sound) :
    leg.departure ≤ leg.arrival :=
  (htimetable.route_sound h.route).departureAt_le_arrivalAt h.departure h.arrival h.forward

theorem ready_le_arrival (h : leg.Runs timetable source target) (htimetable : timetable.Sound) :
    leg.ready ≤ leg.arrival :=
  Scalar.le_trans h.catches (h.departure_le_arrival htimetable)

omit [LawfulScalar α] in
theorem target_contained (h : leg.Runs timetable source target) (htimetable : timetable.Sound) :
    timetable.contains target = true := by
  obtain ⟨call, hcall, rfl⟩ := h.alights
  exact Timetable.contains_iff.mpr
    ((htimetable.route_sound h.route).call_sound_of_getElem? hcall).stop_lt

end Leg.Runs

/-! ## Journeys without loops -/

omit [Scalar α] in
/-- There are no more different stops than the timetable has. -/
theorem Timetable.length_le_stopCount (timetable : Timetable α) {visited : List StopId}
    (hnodup : visited.Nodup) (hcontained : ∀ v ∈ visited, timetable.contains v = true) :
    visited.length ≤ timetable.stopCount := by
  have hindices : (visited.map Id.index).Nodup :=
    List.Pairwise.map _ (fun _ _ hne hij => hne (Id.index_injective hij)) hnodup
  have hsubset : visited.map Id.index ⊆ List.range timetable.stopCount := by
    intro i hi
    obtain ⟨v, hv, rfl⟩ := List.mem_map.mp hi
    exact List.mem_range.mpr (Timetable.contains_iff.mp (hcontained v hv))
  have hle := (hindices.subperm hsubset).length_le
  rwa [List.length_map, List.length_range] at hle

/-- A journey without walks between its rides that comes to no stop twice, with the stops that it
visits, the last one first. -/
inductive Loopless (timetable : Timetable α) (access : List (NearStop α)) (departure : α) :
    NearStop α → List StopId → List (Leg α) → StopId → α → Prop
  | enter {a : NearStop α} (hnear : a ∈ access) :
      Loopless timetable access departure a [a.stop] [] a.stop (departure + a.walkTime)
  | ride {a : NearStop α} {visited : List StopId} {legs : List (Leg α)} {leg : Leg α}
      {source target : StopId} {time : α}
      (hbefore : Loopless timetable access departure a visited legs source time)
      (hruns : leg.Runs timetable source target) (hready : leg.ready = time)
      (hwalk : leg.walk = none) (hnew : target ∉ visited) :
      Loopless timetable access departure a (target :: visited) (legs ++ [leg]) target leg.arrival

section Loopless

variable {timetable : Timetable α} {access : List (NearStop α)} {departure time : α}
  {a : NearStop α} {visited : List StopId} {legs : List (Leg α)} {stop : StopId}

theorem Loopless.journey (h : Loopless timetable access departure a visited legs stop time) :
    Journey timetable access departure a legs stop time ∧ Unwalked legs := by
  induction h with
  | enter hnear => exact ⟨.enter hnear, fun _ hleg => absurd hleg List.not_mem_nil⟩
  | ride _ hruns hready hwalk _ ih =>
    exact ⟨.ride ih.1 hruns hready hwalk, unwalked_concat.mpr ⟨ih.2, hwalk⟩⟩

theorem Loopless.length_visited
    (h : Loopless timetable access departure a visited legs stop time) :
    visited.length = legs.length + 1 ∧ visited.Nodup := by
  induction h with
  | enter _ => exact ⟨rfl, by simp⟩
  | ride _ _ _ _ hnew ih => exact ⟨by simp [ih.1], List.nodup_cons.mpr ⟨hnew, ih.2⟩⟩

theorem Loopless.contained (h : Loopless timetable access departure a visited legs stop time)
    (htimetable : timetable.Sound) (haccess : ∀ a ∈ access, timetable.contains a.stop = true) :
    ∀ v ∈ visited, timetable.contains v = true := by
  induction h with
  | enter hnear => simpa using haccess _ hnear
  | ride _ hruns _ _ _ ih =>
    intro v hv
    rcases List.mem_cons.mp hv with rfl | hv
    · exact hruns.target_contained htimetable
    · exact ih v hv

/-- As no stop is visited twice, there are fewer rides than stops. -/
theorem Loopless.length_legs_lt
    (h : Loopless timetable access departure a visited legs stop time)
    (htimetable : timetable.Sound) (haccess : ∀ a ∈ access, timetable.contains a.stop = true) :
    legs.length < timetable.stopCount := by
  obtain ⟨hlength, hnodup⟩ := h.length_visited
  have hle := timetable.length_le_stopCount hnodup (h.contained htimetable haccess)
  omega

variable [LawfulScalar α]

/-- Each stop that is visited was reached by a part of the journey. -/
theorem Loopless.exists_of_mem_visited
    (h : Loopless timetable access departure a visited legs stop time)
    (htimetable : timetable.Sound) (htime : Scalar.IsNumber time) {v : StopId} (hv : v ∈ visited) :
    ∃ visited' legs' time', Loopless timetable access departure a visited' legs' v time' ∧
      legs'.length ≤ legs.length ∧ time' ≤ time := by
  induction h with
  | enter hnear =>
    obtain rfl := List.mem_singleton.mp hv
    exact ⟨_, _, _, .enter hnear, Nat.le_refl _, Scalar.le_refl htime⟩
  | ride hbefore hruns hready hwalk hnew ih =>
    rcases List.mem_cons.mp hv with rfl | hv
    · exact ⟨_, _, _, .ride hbefore hruns hready hwalk hnew, Nat.le_refl _, Scalar.le_refl htime⟩
    · have hready' := hruns.ready_le_arrival htimetable
      rw [hready] at hready'
      obtain ⟨visited', legs', time', hpart, hlength, hle⟩ :=
        ih (Scalar.isNumber_left hready') hv
      exact ⟨visited', legs', time', hpart, by simp only [List.length_append]; omega,
        Scalar.le_trans hle hready'⟩

/-- A journey without walks between its rides has one without loops that is no later and has no
more rides. -/
theorem Journey.exists_loopless (h : Journey timetable access departure a legs stop time)
    (htimetable : timetable.Sound) (hunwalked : Unwalked legs)
    (hnumber : Scalar.IsNumber (departure + a.walkTime)) :
    ∃ visited legs' time', Loopless timetable access departure a visited legs' stop time' ∧
      legs'.length ≤ legs.length ∧ time' ≤ time := by
  induction h with
  | enter hnear =>
    exact ⟨_, _, _, .enter hnear, Nat.le_refl _, Scalar.le_refl hnumber⟩
  | @ride legs leg source target time _ hruns hready hwalk ih =>
    obtain ⟨visited, legs', time', hbefore, hlength, hle⟩ :=
      ih (unwalked_concat.mp hunwalked).1
    rw [← hready] at hle
    by_cases hnew : target ∈ visited
    · -- The ride comes back to a stop: leave out the loop.
      obtain ⟨visited'', legs'', time'', hpart, hlength', hle'⟩ :=
        hbefore.exists_of_mem_visited htimetable (Scalar.isNumber_left hle) hnew
      exact ⟨visited'', legs'', time'', hpart, by simp only [List.length_append]; omega,
        Scalar.le_trans hle' (Scalar.le_trans hle (hruns.ready_le_arrival htimetable))⟩
    · refine ⟨_, _, _, .ride hbefore (hruns.of_ready_le hle) rfl hwalk hnew, by simpa, ?_⟩
      have harrival := hruns.ready_le_arrival htimetable
      exact Scalar.le_refl (Scalar.isNumber_right harrival)
  | rideAndWalk _ _ _ hwalk _ _ _ => cases hwalk.symm.trans (unwalked_concat.mp hunwalked).2

end Loopless

end ZoneSkims
