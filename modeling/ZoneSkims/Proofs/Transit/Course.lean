import ZoneSkims.Proofs.Transit.Rounds

/-!
# The course of a search

A search walks to the first stops, and then goes on round by round from the stops that the round
before has improved. Routes are boarded at other stops too, but nothing comes of it: what these
offer was taken into account in the round after their last improvement. So every improvement of a
round goes on, by one ride, from an improvement of the round before.

* `TransitRouter.After`: the state of a search after so many rounds.
* `TransitRouter.exists_after_of_tree`: a tree holds the arrivals of such a state.
* `TransitRouter.Relaxed`: the offers of stops that are not marked are taken into account.
* `TransitRouter.Follows`, `TransitRouter.After.follows`: the improvements of a round go on from
  those of the round before.
* `TransitRouter.After.legs_eq`: what round `k` improves is reached with exactly `k` rides.
-/

namespace ZoneSkims

variable {α : Type} [Scalar α]

namespace TransitRouter

/-- The state of a search after the walks to the first stops and `done` rounds. There is a next
round only if something was improved. -/
inductive After (router : TransitRouter α) (access : List (NearStop α)) (departure : α) :
    Nat → RoundState α → Prop
  | start {state : RoundState α}
      (henter : access.foldlM (enter departure) { best := router.nowhere, improved := [] } =
        .ok state) : After router access departure 0 state
  | round {done : Nat} {state next : RoundState α}
      (hbefore : After router access departure done state) (hmarked : state.improved ≠ [])
      (hround : router.round state.improved state.best = .ok next) :
      After router access departure (done + 1) next

/-- What the stops offer that are not marked is taken into account. -/
def Relaxed (router : TransitRouter α) (marked : List StopId) (best : Array (Arrival α)) : Prop :=
  ∀ here leg source target, router.Offers best here leg source target → source ∉ marked →
    Within best target leg.arrival

/-- An arrival that goes on by one ride from a marked stop, and is not before the arrival there. -/
def Follows (marked : List StopId) (before : Array (Arrival α)) (label : Arrival α) : Prop :=
  ∃ source ∈ marked, ∃ here, before[source.index]? = some here ∧ here.isReached = true ∧
    here.time ≤ label.time ∧ label.legs = here.legs + 1

variable {router : TransitRouter α} {isTrain : Route α → Bool} {access : List (NearStop α)}
  {departure : α} {done later : Nat} {state next : RoundState α}

/-! ## The states of one search -/

/-- A search has one course. -/
theorem After.unique (h : router.After access departure done state)
    (hnext : router.After access departure done next) : state = next := by
  induction h generalizing next with
  | start henter =>
    cases hnext with
    | start henter' => exact Except.ok.inj (henter.symm.trans henter')
  | round hbefore _ hround ih =>
    cases hnext with
    | round hbefore' _ hround' =>
      cases ih hbefore'
      exact Except.ok.inj (hround.symm.trans hround')

/-- Before later rounds there are earlier ones, each of which has improved something. -/
theorem After.exists_earlier (h : router.After access departure later next) (hlt : done < later) :
    ∃ state, router.After access departure done state ∧ state.improved ≠ [] := by
  induction h with
  | start _ => exact absurd hlt (Nat.not_lt_zero _)
  | round hbefore hmarked _ ih =>
    rcases Nat.eq_or_lt_of_le (Nat.le_of_lt_succ hlt) with rfl | hlt
    · exact ⟨_, hbefore, hmarked⟩
    · exact ih hlt

/-- There are no rounds after one that has improved nothing. -/
theorem After.le_of_improved_eq_nil (h : router.After access departure done state)
    (hnone : state.improved = []) (hlater : router.After access departure later next) :
    later ≤ done := by
  refine Nat.le_of_not_lt fun hlt => ?_
  obtain ⟨earlier, hearlier, hmarked⟩ := hlater.exists_earlier hlt
  cases hearlier.unique h
  exact hmarked hnone

theorem exists_after_of_rounds (left : Nat) :
    ∀ {done : Nat} {state : RoundState α} {last : Array (Arrival α) × Nat},
      router.After access departure done state →
      router.rounds left done state.improved state.best = .ok last →
        ∃ final, router.After access departure last.2 final ∧ final.best = last.1 ∧
          last.2 ≤ done + left ∧ (final.improved = [] ∨ last.2 = done + left) := by
  induction left with
  | zero =>
    intro done state last h hrounds
    cases hrounds
    exact ⟨state, h, rfl, Nat.le_refl _, .inr rfl⟩
  | succ left ih =>
    intro done state last h hrounds
    unfold rounds at hrounds
    split at hrounds
    · next hempty =>
      cases hrounds
      exact ⟨state, h, rfl, by omega, .inl (List.isEmpty_iff.mp hempty)⟩
    · next hmarked =>
      obtain ⟨next, hround, hrounds⟩ := bind_eq_ok.mp hrounds
      obtain ⟨final, hfinal, hbest, hle, hend⟩ :=
        ih (.round h (fun hempty => hmarked (List.isEmpty_iff.mpr hempty)) hround) hrounds
      exact ⟨final, hfinal, hbest, by omega, hend.imp_right fun h => by omega⟩

/-- A tree holds what was reached when nothing was improved any more, or there were as many rounds
as there may be. -/
theorem exists_after_of_tree {tree : TransitTree α} (h : router.tree access departure = .ok tree) :
    ∃ last, router.After access departure tree.rounds last ∧ last.best = tree.arrivals ∧
      tree.rounds ≤ router.parameters.maxRounds ∧
        (last.improved = [] ∨ tree.rounds = router.parameters.maxRounds) := by
  obtain ⟨state, henter, h⟩ := bind_eq_ok.mp h
  obtain ⟨⟨arrivals, rounds⟩, hrounds, h⟩ := bind_eq_ok.mp h
  cases h
  obtain ⟨last, hlast, hbest, hle, hend⟩ := exists_after_of_rounds _ (.start henter) hrounds
  rw [Nat.zero_add] at hle hend
  exact ⟨last, hlast, hbest, hle, hend⟩

/-! ## Offers that are taken into account -/

variable [LawfulScalar α]

/-- At the start all stops are marked that are reached. -/
theorem relaxed_start (hsince : RoundState.Since (Entered access departure) router.nowhere state) :
    router.Relaxed state.improved state.best := by
  intro here leg source target hoffer hsource
  have hold := hsince.kept source hsource
  rw [hoffer.known] at hold
  cases eq_unreached_of_nowhere hold.symm
  exact absurd (Scalar.lt_infinity_of_isFinite hoffer.isReached) (Scalar.lt_irrefl _)

section Round

variable {marked : List StopId} {before : Array (Arrival α)} {rides : RoundState α}

/-- Offers of the arrivals before a round are taken into account after it: those of a marked stop
now, and those of another one earlier. -/
theorem Relaxed.within_of_offers (h : router.Relaxed marked before)
    (hnext : router.Advances marked before rides next) {here : Arrival α} {leg : Leg α}
    {source target : StopId} (hoffer : router.Offers before here leg source target) :
    Within next.best target leg.arrival := by
  by_cases hmarked : source ∈ marked
  · exact hnext.within_of_offers hoffer hmarked
  · exact hnext.within (h here leg source target hoffer hmarked)

theorem Relaxed.advances (h : router.Relaxed marked before)
    (hnext : router.Advances marked before rides next) :
    router.Relaxed next.improved next.best := by
  intro here leg source target hoffer hsource
  have hold : before[source.index]? = some here :=
    (hnext.since.kept source hsource).symm.trans hoffer.known
  exact h.within_of_offers hnext { hoffer with known := hold }

/-! ## Where improvements come from -/

/-- A ride that arrives earlier than what is known was boarded at a marked stop. -/
theorem follows_of_ridden (htimetable : router.timetable.Sound) (h : router.Relaxed marked before)
    {stop : StopId} {known label : Arrival α} (hridden : router.Ridden before stop label)
    (hknown : before[stop.index]? = some known) (hlt : label.time < known.time) :
    Follows marked before label := by
  obtain ⟨here, leg, source, train, hoffer, -, -, rfl⟩ := hridden
  by_cases hmarked : source ∈ marked
  · have hle := hoffer.runs.ready_le_arrival htimetable
    rw [hoffer.ready] at hle
    exact ⟨source, hmarked, here, hoffer.known, hoffer.isReached, hle, rfl⟩
  · obtain ⟨known', hknown', hle⟩ := h here leg source stop hoffer hmarked
    cases hknown.symm.trans hknown'
    exact absurd hlt (Scalar.not_lt_of_le hle)

/-- What a round improves goes on from a marked stop, by a ride and perhaps a walk behind it. -/
theorem Advances.follows (htimetable : router.timetable.Sound)
    (hfits : router.Fits marked before) (h : router.Relaxed marked before)
    (hnext : router.Advances marked before rides next) {stop : StopId} {label : Arrival α}
    (hstop : stop ∈ next.improved) (hlabel : next.best[stop.index]? = some label) :
    Follows marked before label := by
  obtain ⟨known, label', hknown, hlabel', hlt, hkind⟩ := hnext.since.gained stop hstop
  cases hlabel.symm.trans hlabel'
  rcases hkind with hridden |
    ⟨middle, arrived, transfers, transfer, hmiddle, harrived, htransfers, htransfer, -, rfl⟩
  · exact follows_of_ridden htimetable h hridden hknown hlt
  · obtain ⟨known', arrived', hknown', harrived', hlt', hridden⟩ :=
      hnext.since_rides.gained middle hmiddle
    cases harrived.symm.trans harrived'
    obtain ⟨source, hsource, here, hhere, hreached, hle, hlegs⟩ :=
      follows_of_ridden htimetable h hridden hknown' hlt'
    have hcontained : router.timetable.contains middle = true :=
      Timetable.contains_iff.mpr (hfits.size ▸ hnext.since_rides.lt_size_of_mem hmiddle)
    have hwalk := (htimetable.transfer_sound hcontained htransfers htransfer).2
    have hsum := Scalar.isNumber_left (Scalar.le_of_lt hlt)
    exact ⟨source, hsource, here, hhere, hreached,
      Scalar.le_trans hle (LawfulScalar.le_add hsum hwalk), hlegs⟩

end Round

/-! ## What holds of all states -/

section Course

variable (hrouter : router.Sound isTrain)
  (haccess : ∀ a ∈ access, router.timetable.contains a.stop = true)

include hrouter haccess

theorem After.fits (h : router.After access departure done state) :
    router.Fits state.improved state.best := by
  induction h with
  | start henter =>
    obtain ⟨state, hstate, -, hfits, -⟩ := enter_spec haccess
    cases henter.symm.trans hstate
    exact hfits
  | round _ _ hround ih =>
    obtain ⟨next, hnext, rides, hadvances⟩ := round_spec hrouter ih
    cases hround.symm.trans hnext
    exact hadvances.fits ih

theorem After.advances (h : router.After access departure done state)
    (hround : router.round state.improved state.best = .ok next) :
    ∃ rides, router.Advances state.improved state.best rides next := by
  obtain ⟨next', hnext', rides, hadvances⟩ := round_spec hrouter (h.fits hrouter haccess)
  cases hround.symm.trans hnext'
  exact ⟨rides, hadvances⟩

theorem After.relaxed (h : router.After access departure done state) :
    router.Relaxed state.improved state.best := by
  induction h with
  | start henter =>
    obtain ⟨state, hstate, hsince, -⟩ := enter_spec haccess
    cases henter.symm.trans hstate
    exact relaxed_start hsince
  | round hbefore _ hround ih =>
    obtain ⟨rides, hadvances⟩ := hbefore.advances hrouter haccess hround
    exact ih.advances hadvances

/-- The improvements of a round go on from those of the round before. -/
theorem After.follows (h : router.After access departure done state)
    (hround : router.round state.improved state.best = .ok next) {stop : StopId}
    {label : Arrival α} (hstop : stop ∈ next.improved)
    (hlabel : next.best[stop.index]? = some label) :
    Follows state.improved state.best label := by
  obtain ⟨rides, hadvances⟩ := h.advances hrouter haccess hround
  exact hadvances.follows hrouter.timetable (h.fits hrouter haccess) (h.relaxed hrouter haccess)
    hstop hlabel

/-- The stops that round `k` improves are reached with exactly `k` rides. -/
theorem After.legs_eq (h : router.After access departure done state) {stop : StopId}
    {label : Arrival α} (hstop : stop ∈ state.improved)
    (hlabel : state.best[stop.index]? = some label) : label.legs = done := by
  induction h generalizing stop label with
  | start henter =>
    obtain ⟨state, hstate, hsince, -⟩ := enter_spec haccess
    cases henter.symm.trans hstate
    obtain ⟨-, label', -, hlabel', -, a, -, -, rfl⟩ := hsince.gained stop hstop
    cases hlabel.symm.trans hlabel'
    rfl
  | round hbefore _ hround ih =>
    obtain ⟨source, hsource, here, hhere, -, -, hlegs⟩ :=
      hbefore.follows hrouter haccess hround hstop hlabel
    rw [hlegs, ih hsource hhere]

end Course

end TransitRouter

end ZoneSkims
