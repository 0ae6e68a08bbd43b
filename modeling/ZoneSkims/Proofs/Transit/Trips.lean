import ZoneSkims.Proofs.Transit.Timetable

/-!
# Trips of a route

On a sound route no trip overtakes another, and the trips that a rider can catch at a position are
those from a first one on. Bisection finds that one.

* `bisect_spec`: bisection finds where a test stops to hold.
* `Route.Sound.departureAt_mono`, `Route.Sound.arrivalAt_mono`: trips do not overtake.
* `Route.Sound.departureAt_le_arrivalAt`: trips run forward in time.
* `Route.Sound.earliestTrip`: the first trip that can be caught.
-/

namespace ZoneSkims

/-- Bisection finds the place from which on a test fails, when it holds up to there. -/
theorem bisect_spec {early : Nat → Bool} (steps : Nat) :
    ∀ {low high : Nat}, low ≤ high → high ≤ low + steps →
      (∀ i j, i ≤ j → j < high → early j = true → early i = true) →
        low ≤ bisect early steps low high ∧ bisect early steps low high ≤ high ∧
          (∀ i, low ≤ i → i < bisect early steps low high → early i = true) ∧
            ∀ i, bisect early steps low high ≤ i → i < high → early i = false := by
  induction steps with
  | zero =>
    intro low high hle hsteps _
    have heq : low = high := by omega
    subst heq
    exact ⟨Nat.le_refl _, Nat.le_refl _, fun i h h' => absurd h' (by simp only [bisect]; omega),
      fun i h h' => absurd h (by simp only [bisect]; omega)⟩
  | succ steps ih =>
    intro low high hle hsteps hearly
    unfold bisect
    by_cases hlt : low < high
    · simp only [if_pos hlt]
      split
      · next hmiddle =>
        obtain ⟨hlow, hhigh, hbefore, hafter⟩ :=
          @ih ((low + high) / 2 + 1) high (by omega) (by omega) hearly
        refine ⟨by omega, hhigh, fun i hi hir => ?_, hafter⟩
        by_cases him : i ≤ (low + high) / 2
        · exact hearly i _ him (by omega) hmiddle
        · exact hbefore i (by omega) hir
      · next hmiddle =>
        obtain ⟨hlow, hhigh, hbefore, hafter⟩ :=
          @ih low ((low + high) / 2) (by omega) (by omega)
            fun i j hij hj => hearly i j hij (by omega)
        refine ⟨hlow, by omega, hbefore, fun i hi hih => ?_⟩
        by_cases him : i < (low + high) / 2
        · exact hafter i hi him
        · -- The test failed in the middle, and so it fails from there on.
          cases hei : early i with
          | false => rfl
          | true => exact absurd (hearly _ i (by omega) hih hei) hmiddle
    · have heq : low = high := by omega
      simp only [if_neg hlt]
      exact ⟨Nat.le_refl _, hle, fun i h h' => by omega, fun i h h' => by omega⟩

namespace Route

variable {α : Type} [Scalar α]

/-! ## Times of a trip -/

theorem departureAt_eq_ok {route : Route α} {trip position : Nat} {time : α} :
    route.departureAt trip position = .ok time ↔
      ∃ start call, route.departures[trip]? = some start ∧ route.calls[position]? = some call ∧
        start + call.departure = time := by
  unfold departureAt
  simp [bind_eq_ok, fetch_eq_ok, pure, Except.pure]

theorem arrivalAt_eq_ok {route : Route α} {trip position : Nat} {time : α} :
    route.arrivalAt trip position = .ok time ↔
      ∃ start call, route.departures[trip]? = some start ∧ route.calls[position]? = some call ∧
        start + call.arrival = time := by
  unfold arrivalAt
  simp [bind_eq_ok, fetch_eq_ok, pure, Except.pure]

theorem metresBetween_eq_ok {route : Route α} {start finish : Nat} {metres : α} :
    route.metresBetween start finish = .ok metres ↔
      ∃ last first, route.mileage[finish]? = some last ∧ route.mileage[start]? = some first ∧
        last - first = metres := by
  unfold metresBetween
  simp [bind_eq_ok, fetch_eq_ok, pure, Except.pure]

namespace Sound

variable [LawfulScalar α] {n : Nat} {route : Route α}

omit [LawfulScalar α] in
theorem call_sound_of_getElem? (h : route.Sound n) {position : Nat} {call : Call α}
    (hcall : route.calls[position]? = some call) : call.Sound n :=
  h.call_sound call (Array.mem_toList_iff.mpr (Array.mem_of_getElem? hcall))

omit [LawfulScalar α] in
theorem isFinite_of_getElem? (h : route.Sound n) {trip : Nat} {start : α}
    (hstart : route.departures[trip]? = some start) : Scalar.isFinite start = true :=
  h.isFinite_start start (Array.mem_toList_iff.mpr (Array.mem_of_getElem? hstart))

theorem start_mono (h : route.Sound n) {trip other : Nat} {start start' : α}
    (hstart : route.departures[trip]? = some start)
    (hother : route.departures[other]? = some start') (hle : trip ≤ other) : start ≤ start' := by
  rcases Nat.eq_or_lt_of_le hle with rfl | hlt
  · rw [hstart] at hother
    cases hother
    exact Scalar.le_refl (Scalar.isNumber_of_isFinite (h.isFinite_of_getElem? hstart))
  · rw [← Array.getElem?_toList] at hstart hother
    obtain ⟨_, rfl⟩ := List.getElem?_eq_some_iff.mp hstart
    obtain ⟨_, rfl⟩ := List.getElem?_eq_some_iff.mp hother
    exact List.pairwise_iff_getElem.mp h.sorted trip other _ _ hlt

/-- A later trip leaves no position earlier. -/
theorem departureAt_mono (h : route.Sound n) {trip other position : Nat} {time time' : α}
    (htime : route.departureAt trip position = .ok time)
    (hother : route.departureAt other position = .ok time') (hle : trip ≤ other) :
    time ≤ time' := by
  obtain ⟨start, call, hstart, hcall, rfl⟩ := departureAt_eq_ok.mp htime
  obtain ⟨start', call', hstart', hcall', rfl⟩ := departureAt_eq_ok.mp hother
  cases hcall.symm.trans hcall'
  exact LawfulScalar.add_le_add_right (h.call_sound_of_getElem? hcall).isFinite_departure
    (h.start_mono hstart hstart' hle)

/-- A later trip comes to no position earlier. -/
theorem arrivalAt_mono (h : route.Sound n) {trip other position : Nat} {time time' : α}
    (htime : route.arrivalAt trip position = .ok time)
    (hother : route.arrivalAt other position = .ok time') (hle : trip ≤ other) :
    time ≤ time' := by
  obtain ⟨start, call, hstart, hcall, rfl⟩ := arrivalAt_eq_ok.mp htime
  obtain ⟨start', call', hstart', hcall', rfl⟩ := arrivalAt_eq_ok.mp hother
  cases hcall.symm.trans hcall'
  exact LawfulScalar.add_le_add_right (h.call_sound_of_getElem? hcall).isFinite_arrival
    (h.start_mono hstart hstart' hle)

/-- Every earlier trip comes to the positions of a trip, and no later. -/
theorem exists_arrivalAt_le (h : route.Sound n) {trip earlier position : Nat} {time : α}
    (htime : route.arrivalAt trip position = .ok time) (hle : earlier ≤ trip) :
    ∃ time', route.arrivalAt earlier position = .ok time' ∧ time' ≤ time := by
  obtain ⟨start, call, hstart, hcall, rfl⟩ := arrivalAt_eq_ok.mp htime
  have hlt : earlier < route.departures.size :=
    Nat.lt_of_le_of_lt hle (Array.getElem?_eq_some_iff.mp hstart).1
  have harrival : route.arrivalAt earlier position =
      .ok (route.departures[earlier] + call.arrival) :=
    arrivalAt_eq_ok.mpr ⟨_, call, Array.getElem?_eq_getElem hlt, hcall, rfl⟩
  exact ⟨_, harrival, h.arrivalAt_mono harrival htime hle⟩

/-- A trip comes to a later position no earlier than it leaves this one. -/
theorem departureAt_le_arrivalAt (h : route.Sound n) {trip position later : Nat} {time time' : α}
    (htime : route.departureAt trip position = .ok time)
    (hlater : route.arrivalAt trip later = .ok time') (hlt : position < later) :
    time ≤ time' := by
  obtain ⟨start, call, hstart, hcall, rfl⟩ := departureAt_eq_ok.mp htime
  obtain ⟨start', call', hstart', hcall', rfl⟩ := arrivalAt_eq_ok.mp hlater
  cases hstart.symm.trans hstart'
  refine Scalar.add_le_add_left (h.isFinite_of_getElem? hstart) ?_
  rw [← Array.getElem?_toList] at hcall hcall'
  obtain ⟨_, rfl⟩ := List.getElem?_eq_some_iff.mp hcall
  obtain ⟨_, rfl⟩ := List.getElem?_eq_some_iff.mp hcall'
  exact List.pairwise_iff_getElem.mp h.departure_le_arrival position later _ _ hlt

/-- No trip arrives before all times. -/
theorem neg_infinity_lt_arrivalAt (h : route.Sound n) {trip position : Nat} {time : α}
    (htime : route.arrivalAt trip position = .ok time) : -Scalar.infinity < time := by
  obtain ⟨start, call, hstart, hcall, rfl⟩ := arrivalAt_eq_ok.mp htime
  have hfinite := h.isFinite_of_getElem? hstart
  have hsound := h.call_sound_of_getElem? hcall
  exact Scalar.lt_of_lt_of_le (LawfulScalar.isFinite_iff.mp hfinite).1
    (Scalar.le_add_of_isFinite (Scalar.isNumber_of_isFinite hfinite) hsound.isFinite_arrival
      hsound.zero_le_arrival)

theorem isNumber_departureAt (h : route.Sound n) {trip position : Nat} {time : α}
    (htime : route.departureAt trip position = .ok time) : Scalar.IsNumber time := by
  obtain ⟨start, call, hstart, hcall, rfl⟩ := departureAt_eq_ok.mp htime
  exact Scalar.isNumber_add (Scalar.isNumber_of_isFinite (h.isFinite_of_getElem? hstart))
    (h.call_sound_of_getElem? hcall).isFinite_departure

/-! ## The first trip that can be caught -/

/-- The first trip that leaves a position at a time or later, if there is one, is found. -/
theorem earliestTrip (h : route.Sound n) {position : Nat} (hposition : position < route.stopCount)
    {ready : α} (hready : Scalar.IsNumber ready) :
    Returns (route.earliestTrip position ready) fun best =>
      (∀ trip, best = some trip →
        ∃ time, route.departureAt trip position = .ok time ∧ ready ≤ time) ∧
      ∀ trip time, route.departureAt trip position = .ok time → ready ≤ time →
        ∃ first, best = some first ∧ first ≤ trip := by
  unfold Route.earliestTrip
  refine Returns.bind (Returns.fetch hposition) fun call hcall => Returns.pure ?_
  have hfinite := (h.call_sound_of_getElem? hcall).isFinite_departure
  generalize hdef : (fun trip : Nat =>
    route.departures[trip]?.any fun start => decide (start + call.departure < ready)) = early
  have hearly : ∀ {trip : Nat} {start : α}, route.departures[trip]? = some start →
      (early trip = true ↔ start + call.departure < ready) := by
    intro trip start hstart
    simp [← hdef, hstart]
  have hmono : ∀ i j, i ≤ j → j < route.tripCount → early j = true → early i = true := by
    intro i j hij hlt hlate
    have hi : route.departures[i]? = some _ :=
      Array.getElem?_eq_getElem (Nat.lt_of_le_of_lt hij hlt)
    have hj : route.departures[j]? = some _ := Array.getElem?_eq_getElem hlt
    exact (hearly hi).mpr (Scalar.lt_of_le_of_lt
      (LawfulScalar.add_le_add_right hfinite (h.start_mono hi hj hij)) ((hearly hj).mp hlate))
  obtain ⟨-, -, hbefore, hafter⟩ :=
    bisect_spec route.tripCount (Nat.zero_le route.tripCount) (Nat.le_add_left _ _) hmono
  constructor
  · intro trip htrip
    split at htrip
    · next hlt =>
      cases htrip
      have hstart : route.departures[bisect early route.tripCount 0 route.tripCount]? = some _ :=
        Array.getElem?_eq_getElem hlt
      refine ⟨_, departureAt_eq_ok.mpr ⟨_, call, hstart, hcall, rfl⟩, ?_⟩
      have hnumber := Scalar.isNumber_of_isFinite (h.isFinite_of_getElem? hstart)
      refine Scalar.le_of_not_lt (Scalar.isNumber_add hnumber hfinite) hready fun hlate => ?_
      exact absurd ((hearly hstart).mpr hlate) (by simp [hafter _ (Nat.le_refl _) hlt])
    · cases htrip
  · intro trip time htime hcatch
    obtain ⟨start, call', hstart, hcall', rfl⟩ := departureAt_eq_ok.mp htime
    cases hcall.symm.trans hcall'
    have htrip : trip < route.tripCount := (Array.getElem?_eq_some_iff.mp hstart).1
    -- A trip that can be caught does not leave too early, and so is not before the one found.
    have hfirst : bisect early route.tripCount 0 route.tripCount ≤ trip := by
      refine Nat.le_of_not_lt fun hlt => ?_
      have hlate := (hearly hstart).mp (hbefore trip (Nat.zero_le _) hlt)
      exact Scalar.not_lt_of_le hcatch hlate
    exact ⟨_, if_pos (by omega), hfirst⟩

/-- A trip that is found at a position leaves it at the time or later. -/
theorem catches_of_earliestTrip (h : route.Sound n) {trip position : Nat} {ready : α}
    (hfound : route.earliestTrip position ready = .ok (some trip))
    (hready : Scalar.IsNumber ready) :
    ∃ time, route.departureAt trip position = .ok time ∧ ready ≤ time := by
  obtain ⟨call, hcall, -⟩ := bind_eq_ok.mp hfound
  have hposition := (Array.getElem?_eq_some_iff.mp (fetch_eq_ok.mp hcall)).1
  obtain ⟨best, hbest, hcatches, -⟩ := h.earliestTrip hposition hready
  exact hcatches trip (Except.ok.inj (hbest.symm.trans hfound))

end Sound

end Route

end ZoneSkims
