import ZoneSkims.Proofs.Transit.Course
import ZoneSkims.Proofs.Transit.Soundness

/-!
# The limit on changes

No round reads the limit on changes: it only says how many rounds there may be. So the search with
the lower limit is a first part of the one with the higher limit. Each round after that puts
arrivals of more rides in the place of later ones, which is why the number of rides of an arrival
tells whether it was there before.

* `TransitRouter.Alike`: two routers between which no round makes a difference.
* `TransitRouter.LastImproved`: the last round that has improved a stop.
* `TransitRouter.After.label_cases`: what later rounds make of an arrival.
* `TransitRouter.tree_of_fewer_transfers`: the lower limit only cuts the search off.
-/

namespace ZoneSkims

variable {α : Type} [Scalar α]

namespace TransitRouter

/-- The routers have in common what a round reads of them. -/
structure Alike (first second : TransitRouter α) : Prop where
  timetable : first.timetable = second.timetable
  isTrain : first.isTrain = second.isTrain
  maxTransferWait : first.parameters.maxTransferWait = second.parameters.maxTransferWait

/-- Of so many rounds, `k` is the last one that has improved the stop. The walks to the first stops
count as round 0. -/
structure LastImproved (router : TransitRouter α) (access : List (NearStop α)) (departure : α)
    (rounds : Nat) (stop : StopId) (k : Nat) : Prop where
  le : k ≤ rounds
  improved : ∃ state, router.After access departure k state ∧ stop ∈ state.improved
  last : ∀ later state, k < later → later ≤ rounds → router.After access departure later state →
    stop ∉ state.improved

variable {router : TransitRouter α} {isTrain : Route α → Bool} {access : List (NearStop α)}
  {departure : α} {done later : Nat} {state next : RoundState α} {stop : StopId}
  {label : Arrival α}

/-! ## The same rounds -/

/-- Routers that board alike from the arrivals before a round make the same of them. -/
theorem round_congr {first second : TransitRouter α} {best : Array (Arrival α)}
    (htimetable : first.timetable = second.timetable) (hisTrain : first.isTrain = second.isTrain)
    (hboard : ∀ route position stop boarded, first.board route best position stop boarded =
      second.board route best position stop boarded) (marked : List StopId) :
    first.round marked best = second.round marked best := by
  have hcalls : ∀ route train calls boarded state,
      first.rideCalls route train best calls boarded state =
        second.rideCalls route train best calls boarded state := by
    intro route train calls
    induction calls with
    | nil => exact fun _ _ => rfl
    | cons entry calls ih => exact fun boarded state => by simp only [rideCalls, hboard, ih]
  have hride : first.rideRoute best = second.rideRoute best := by
    funext state queued
    simp only [rideRoute, htimetable, hisTrain, hcalls]
  have hqueue : first.routeQueue = second.routeQueue := by
    funext stops
    simp only [routeQueue, htimetable]
  have hwalk : first.walkAll = second.walkAll := by
    funext state
    simp only [walkAll, htimetable]
  simp only [round, hride, hqueue, hwalk]

namespace Alike

variable {first second : TransitRouter α} (h : Alike first second)

include h

theorem round_eq (marked : List StopId) (best : Array (Arrival α)) :
    first.round marked best = second.round marked best :=
  round_congr h.timetable h.isTrain
    (fun _ _ _ _ => by simp only [board, h.maxTransferWait]) marked

theorem after (hafter : first.After access departure done state) :
    second.After access departure done state := by
  induction hafter with
  | start henter =>
    rw [nowhere, h.timetable] at henter
    exact .start henter
  | round _ hmarked hround ih =>
    rw [h.round_eq] at hround
    exact .round ih hmarked hround

/-- A search with a lower limit has the same rounds, unless it was cut off before the last one. -/
theorem rounds_cases {few many : TransitTree α}
    (hle : first.parameters.maxTransfers ≤ second.parameters.maxTransfers)
    (hfew : first.tree access departure = .ok few)
    (hmany : second.tree access departure = .ok many) :
    few.rounds = many.rounds ∨
      few.rounds = first.parameters.maxTransfers + 1 ∧ few.rounds < many.rounds := by
  obtain ⟨lastFew, hlastFew, -, hfew_le, hfew_end⟩ := exists_after_of_tree hfew
  obtain ⟨lastMany, hlastMany, -, hmany_le, hmany_end⟩ := exists_after_of_tree hmany
  simp only [RouterParameters.maxRounds] at hfew_le hfew_end hmany_le hmany_end
  have hfew_le_many : few.rounds ≤ many.rounds := by
    rcases hmany_end with hnone | hmax
    · exact hlastMany.le_of_improved_eq_nil hnone (h.after hlastFew)
    · omega
  rcases hfew_end with hnone | hmax
  · have hmany_le_few := (h.after hlastFew).le_of_improved_eq_nil hnone hlastMany
    exact .inl (Nat.le_antisymm hfew_le_many hmany_le_few)
  · omega

end Alike

/-! ## The last improvement -/

theorem LastImproved.unique {rounds j k : Nat}
    (hj : router.LastImproved access departure rounds stop j)
    (hk : router.LastImproved access departure rounds stop k) : j = k := by
  obtain ⟨earlier, hearlier, hstop⟩ := hj.improved
  obtain ⟨state, hstate, hstop'⟩ := hk.improved
  rcases Nat.lt_trichotomy j k with hlt | heq | hlt
  · exact absurd hstop' (hj.last k state hlt hk.le hstate)
  · exact heq
  · exact absurd hstop (hk.last j earlier hlt hj.le hearlier)

section Course

variable [LawfulScalar α] (hrouter : router.Sound isTrain)
  (haccess : ∀ a ∈ access, router.timetable.contains a.stop = true)

include hrouter haccess

/-- An arrival that later rounds have put in the place of another one has more rides, and is
earlier, but not before all times. -/
theorem After.label_cases (h : router.After access departure done state)
    (hlater : router.After access departure later next) (hle : done ≤ later)
    (hlabel : next.best[stop.index]? = some label) :
    state.best[stop.index]? = some label ∨
      done < label.legs ∧ -Scalar.infinity < label.time ∧
        ∃ known, state.best[stop.index]? = some known ∧ label.time < known.time := by
  induction hlater generalizing label with
  | start henter =>
    obtain rfl := Nat.le_zero.mp hle
    cases h.unique (.start henter)
    exact .inl hlabel
  | @round last before next hbefore hmarked hround ih =>
    rcases Nat.eq_or_lt_of_le hle with rfl | hlt
    · cases h.unique (.round hbefore hmarked hround)
      exact .inl hlabel
    have hle' : done ≤ last := Nat.le_of_lt_succ hlt
    obtain ⟨rides, hadvances⟩ := hbefore.advances hrouter haccess hround
    rcases hadvances.since.cases hlabel with ⟨-, hold⟩ | ⟨hstop, -, known, hknown, hearlier⟩
    · exact ih hle' hold
    · have hlegs := (After.round hbefore hmarked hround).legs_eq hrouter haccess hstop hlabel
      obtain ⟨-, -, here, -, hreached, hafter, -⟩ :=
        hbefore.follows hrouter haccess hround hstop hlabel
      have habove :=
        Scalar.lt_of_lt_of_le (LawfulScalar.isFinite_iff.mp hreached).1 hafter
      refine .inr ⟨by omega, habove, ?_⟩
      rcases ih hle' hknown with hsame | ⟨-, -, known', hknown', hlt'⟩
      · exact ⟨known, hsame, hearlier⟩
      · exact ⟨known', hknown', Scalar.lt_trans hearlier hlt'⟩

/-- Every arrival but the one that stands for none has a round that was the last to improve it. -/
theorem After.lastImproved (h : router.After access departure done state)
    (hlabel : state.best[stop.index]? = some label) :
    label = Arrival.unreached ∨
      router.LastImproved access departure done stop label.legs := by
  induction h generalizing label with
  | start henter =>
    obtain ⟨state, hstate, hsince, -⟩ := enter_spec haccess
    cases henter.symm.trans hstate
    rcases hsince.cases hlabel with ⟨-, hold⟩ | ⟨hstop, -⟩
    · exact .inl (eq_unreached_of_nowhere hold)
    · have hstart := After.start henter
      rw [hstart.legs_eq hrouter haccess hstop hlabel]
      exact .inr ⟨Nat.le_refl _, ⟨_, hstart, hstop⟩, fun _ _ _ _ => by omega⟩
  | round hbefore hmarked hround ih =>
    have hnext := After.round hbefore hmarked hround
    obtain ⟨rides, hadvances⟩ := hbefore.advances hrouter haccess hround
    rcases hadvances.since.cases hlabel with ⟨hnot, hold⟩ | ⟨hstop, -⟩
    · refine (ih hold).imp_right fun hlast => ⟨Nat.le_succ_of_le hlast.le, hlast.improved, ?_⟩
      intro later state hlt hle hstate
      rcases Nat.le_succ_iff.mp hle with hle | rfl
      · exact hlast.last later state hlt hle hstate
      · cases hstate.unique hnext
        exact hnot
    · rw [hnext.legs_eq hrouter haccess hstop hlabel]
      exact .inr ⟨Nat.le_refl _, ⟨_, hnext, hstop⟩, fun _ _ _ _ => by omega⟩

/-- An arrival has as many rides as the last round that has improved it says. -/
theorem LastImproved.legs_eq {rounds k : Nat}
    (h : router.LastImproved access departure rounds stop k)
    (hlast : router.After access departure rounds state)
    (hlabel : state.best[stop.index]? = some label) : label.legs = k := by
  rcases hlast.lastImproved hrouter haccess hlabel with rfl | hlegs
  · obtain ⟨earlier, hearlier, hstop⟩ := h.improved
    rcases hearlier.label_cases hrouter haccess hlast h.le hlabel with hsame | ⟨hlt, -⟩
    · exact hearlier.legs_eq hrouter haccess hstop hsame
    · exact absurd hlt (Nat.not_lt_zero k)
  · exact hlegs.unique h

end Course

/-! ## Two limits -/

section Limits

variable [LawfulScalar α] {narrow wide : TransitRouter α} (h : Alike narrow wide)
  (hwide : wide.Sound isTrain) (haccess : ∀ a ∈ access, wide.timetable.contains a.stop = true)
  (hle : narrow.parameters.maxTransfers ≤ wide.parameters.maxTransfers)
  {few many : TransitTree α} (hfew : narrow.tree access departure = .ok few)
  (hmany : wide.tree access departure = .ok many)

include h hwide haccess hle hfew hmany

/-- An arrival that the search with the lower limit does not have has more rides than that limit
allows. It is earlier than the one in its place, but not before all times. -/
theorem Alike.arrival_cases (hlabel : many.arrivals[stop.index]? = some label) :
    few.arrivals[stop.index]? = some label ∨
      narrow.parameters.maxTransfers + 1 < label.legs ∧ -Scalar.infinity < label.time ∧
        ∃ known, few.arrivals[stop.index]? = some known ∧ label.time < known.time := by
  obtain ⟨lastFew, hlastFew, hbestFew, -⟩ := exists_after_of_tree hfew
  obtain ⟨lastMany, hlastMany, hbestMany, -⟩ := exists_after_of_tree hmany
  have hcutOff := h.after hlastFew
  rw [← hbestFew]
  rw [← hbestMany] at hlabel
  rcases h.rounds_cases hle hfew hmany with heq | ⟨hmax, hlt⟩
  · rw [heq] at hcutOff
    cases hcutOff.unique hlastMany
    exact .inl hlabel
  · rw [← hmax]
    exact hcutOff.label_cases hwide haccess hlastMany (Nat.le_of_lt hlt) hlabel

/-- What is reached with the lower limit is reached with the higher one, and no later. -/
theorem Alike.exists_arrival (hlabel : few.arrival? stop = some label) :
    ∃ earlier, many.arrival? stop = some earlier ∧ earlier.time ≤ label.time := by
  obtain ⟨hknown, hreached⟩ := Option.filter_eq_some_iff.mp hlabel
  have hsize : few.arrivals.size = many.arrivals.size := by
    obtain ⟨lastFew, hlastFew, hbestFew, -⟩ := exists_after_of_tree hfew
    obtain ⟨lastMany, hlastMany, hbestMany, -⟩ := exists_after_of_tree hmany
    rw [← hbestFew, ← hbestMany, ((h.after hlastFew).fits hwide haccess).size,
      (hlastMany.fits hwide haccess).size]
  obtain ⟨found, hfound⟩ : ∃ found, many.arrivals[stop.index]? = some found :=
    ⟨_, Array.getElem?_eq_getElem (hsize ▸ (Array.getElem?_eq_some_iff.mp hknown).1)⟩
  rcases h.arrival_cases hwide haccess hle hfew hmany hfound with
    hsame | ⟨-, habove, known, hknown', hearlier⟩
  · cases hknown.symm.trans hsame
    exact ⟨label, Option.filter_eq_some_iff.mpr ⟨hfound, hreached⟩,
      Scalar.le_refl (Scalar.isNumber_of_isFinite hreached)⟩
  · cases hknown.symm.trans hknown'
    have hbelow := Scalar.lt_trans hearlier (Scalar.lt_infinity_of_isFinite hreached)
    exact ⟨found, Option.filter_eq_some_iff.mpr
      ⟨hfound, LawfulScalar.isFinite_iff.mpr ⟨habove, hbelow⟩⟩, Scalar.le_of_lt hearlier⟩

end Limits

theorem alike_of_new {timetable : Timetable α} {parameters : RouterParameters α}
    {fewer more : Nat} {narrow wide : TransitRouter α}
    (hnarrow : TransitRouter.new timetable { parameters with maxTransfers := fewer } isTrain =
      .ok narrow)
    (hwide : TransitRouter.new timetable { parameters with maxTransfers := more } isTrain =
      .ok wide) : Alike narrow wide := by
  obtain ⟨-, rfl⟩ := eq_of_new hnarrow
  obtain ⟨-, rfl⟩ := eq_of_new hwide
  exact ⟨rfl, rfl, rfl⟩

/-- A lower limit on changes only cuts a search off. Every stop that is reached with it is reached
with the higher limit too, and no later. Every arrival with the higher limit that makes no more
changes than the lower one allows is also the one with the lower limit. An arrival has as many rides
as the number of the round that has last improved it. -/
theorem tree_of_fewer_transfers [LawfulScalar α] {draft : TimetableDraft α}
    {timetable : Timetable α} {narrow wide : TransitRouter α} (parameters : RouterParameters α)
    {fewer more : Nat} (isTrain : Route α → Bool) (access : List (NearStop α)) (departure : α)
    (hle : fewer ≤ more) (hdraft : draft.Drafted) (hbuild : draft.build = .ok timetable)
    (hstops : timetable.stopCount < 2 ^ 32) (hroutes : timetable.routeCount < 2 ^ 32)
    (hnarrow : TransitRouter.new timetable { parameters with maxTransfers := fewer } isTrain =
      .ok narrow)
    (hwide : TransitRouter.new timetable { parameters with maxTransfers := more } isTrain =
      .ok wide)
    (haccess : ∀ a ∈ access, timetable.contains a.stop = true) :
    ∃ few many last, narrow.tree access departure = .ok few ∧
      wide.tree access departure = .ok many ∧
      (∀ stop label, few.arrival? stop = some label →
        ∃ earlier, many.arrival? stop = some earlier ∧ earlier.time ≤ label.time) ∧
      wide.After access departure many.rounds last ∧ last.best = many.arrivals ∧
      ∀ (stop : StopId) (label : Arrival α), many.arrivals[stop.index]? = some label →
        (label.legs ≤ fewer + 1 → few.arrivals[stop.index]? = some label) ∧
        (label.isReached = true →
          wide.LastImproved access departure many.rounds stop label.legs) ∧
        ∀ k, wide.LastImproved access departure many.rounds stop k → label.legs = k := by
  have htimetable := hdraft.sound_build hbuild hstops hroutes
  have halike := alike_of_new hnarrow hwide
  obtain ⟨hsoundNarrow, -, hsame, hfewer⟩ := sound_of_new htimetable hnarrow
  obtain ⟨hsound, -, rfl, hmore⟩ := sound_of_new htimetable hwide
  have hlimits : narrow.parameters.maxTransfers ≤ wide.parameters.maxTransfers := by
    rw [hfewer, hmore]
    exact hle
  obtain ⟨few, hfew⟩ := exists_tree hsoundNarrow (hsame ▸ haccess) departure
  obtain ⟨many, hmany⟩ := exists_tree hsound haccess departure
  obtain ⟨last, hlast, hbest, -⟩ := exists_after_of_tree hmany
  refine ⟨few, many, last, hfew, hmany, fun stop label =>
    halike.exists_arrival hsound haccess hlimits hfew hmany, hlast, hbest,
    fun stop label hlabel => ?_⟩
  have hlabel' : last.best[stop.index]? = some label := hbest ▸ hlabel
  refine ⟨fun hlegs => ?_, fun hreached => ?_, fun k hk => ?_⟩
  · rcases halike.arrival_cases hsound haccess hlimits hfew hmany hlabel with hkept | ⟨hlt, -⟩
    · exact hkept
    · rw [hfewer] at hlt
      exact absurd hlt (Nat.not_lt_of_le hlegs)
  · rcases hlast.lastImproved hsound haccess hlabel' with rfl | himproved
    · exact absurd (Scalar.lt_infinity_of_isFinite hreached) (Scalar.lt_irrefl _)
    · exact himproved
  · exact hk.legs_eq hsound haccess hlast hlabel'

end TransitRouter

theorem tree_of_fewer_busAndTrain : ∃ draft timetable narrow wide few many,
    (0 : Nat) ≤ 6 ∧ busAndTrain = .ok draft ∧ draft.Drafted ∧ draft.build = .ok timetable ∧
      timetable.stopCount < 2 ^ 32 ∧ timetable.routeCount < 2 ^ 32 ∧
      TransitRouter.new timetable { RouterParameters.standard with maxTransfers := 0 }
        (fun route => decide (route.mode = .rail)) = .ok narrow ∧
      TransitRouter.new timetable { RouterParameters.standard with maxTransfers := 6 }
        (fun route => decide (route.mode = .rail)) = .ok wide ∧
      timetable.contains ⟨0⟩ = true ∧ narrow.tree [⟨⟨0⟩, 45⟩] 0 = .ok few ∧
      wide.tree [⟨⟨0⟩, 45⟩] 0 = .ok many ∧
      (∀ stop label, few.arrival? stop = some label →
        ∃ earlier, many.arrival? stop = some earlier ∧ earlier.time ≤ label.time) ∧
      ∀ (stop : StopId) (label : Arrival Float), many.arrivals[stop.index]? = some label →
        (label.legs ≤ 0 + 1 → few.arrivals[stop.index]? = some label) ∧
        (label.isReached = true →
          wide.LastImproved [⟨⟨0⟩, 45⟩] 0 many.rounds stop label.legs) ∧
        ∀ k, wide.LastImproved [⟨⟨0⟩, 45⟩] 0 many.rounds stop k → label.legs = k := by
  have hdraft := drafted_busAndTrain _ rfl
  obtain ⟨few, many, -, hfew, hmany, hreached, -, -, hlabels⟩ :=
    TransitRouter.tree_of_fewer_transfers .standard (fun route => decide (route.mode = .rail))
      [⟨⟨0⟩, 45⟩] 0 (Nat.zero_le 6) hdraft rfl (by decide) (by decide) rfl rfl (by decide)
  exact ⟨_, _, _, _, few, many, Nat.zero_le 6, rfl, hdraft, rfl, by decide, by decide, rfl, rfl,
    by decide, hfew, hmany, hreached, hlabels⟩

end ZoneSkims
