import ZoneSkims.Proofs.Transit.Optimality
import ZoneSkims.Proofs.Transit.TransferLimit

/-!
# The limit on waits

A search keeps one arrival for each stop. Who may wait longer can take a ride that is refused to
others, be at a stop earlier by it, and find the wait for the next ride too long there. Others, who
come later, do not. So a higher limit on waits can lose a stop. It does not, unless this happens on
the way that the search with the lower limit has found: up to the first change both searches are the
same, and from then on the one with the higher limit is at no stop of that way later, as long as it
is not refused a ride there.

* `TransitRouter.Hastier`: two routers of which one has the lower limit on waits.
* `TransitRouter.Refuses`, `TransitRouter.Unrefused`: the wait for a ride is too long.
* `TransitRouter.Matched`, `TransitRouter.Hastier.matched`: the invariant of the rounds.
* `TransitRouter.tree_of_longer_wait`: what a higher limit on waits keeps.
* `not_tree_of_longer_wait`: it does not keep everything.
-/

namespace ZoneSkims

variable {α : Type} [Scalar α]

namespace TransitRouter

/-- The routers differ in nothing but the limit on waits, and the first one has the lower limit. -/
structure Hastier (hasty calm : TransitRouter α) : Prop where
  timetable : hasty.timetable = calm.timetable
  isTrain : hasty.isTrain = calm.isTrain
  maxRounds : hasty.parameters.maxRounds = calm.parameters.maxRounds
  le : hasty.parameters.maxTransferWait ≤ calm.parameters.maxTransferWait

/-- The state of a search after so many rounds, or after its last one if there are fewer. -/
def ByRound (router : TransitRouter α) (access : List (NearStop α)) (departure : α) (rounds : Nat)
    (state : RoundState α) : Prop :=
  ∃ done ≤ rounds, router.After access departure done state ∧
    (done = rounds ∨ state.improved = [])

/-- Whoever arrives as is known at the stop where a leg is boarded, with a ride behind them, waits
too long for the first trip that they can catch. -/
def Refuses (router : TransitRouter α) (best : Array (Arrival α)) (leg : Leg α) : Prop :=
  ∃ call here trip time, leg.route.calls[leg.boarding]? = some call ∧
    best[call.stop.index]? = some here ∧ 0 < here.legs ∧
      leg.route.earliestTrip leg.boarding here.time = .ok (some trip) ∧
        leg.route.departureAt trip leg.boarding = .ok time ∧
          router.parameters.maxTransferWait < time - here.time

/-- The search is not refused the third ride, or a later one, on the route and at the stop of that
leg. The first ride and the second one are left out: see `Hastier.not_refuses`. -/
def Unrefused (router : TransitRouter α) (access : List (NearStop α)) (departure : α)
    (legs : List (Leg α)) : Prop :=
  ∀ k leg state, 2 ≤ k → legs[k]? = some leg → router.ByRound access departure k state →
    ¬ router.Refuses state.best leg

/-- The arrival of the hasty search has a journey. In as many rounds the calm search is at the stop
no later, unless it is refused a ride of the journey. -/
def Matched (hasty calm : TransitRouter α) (isTrain : Route α → Bool) (access : List (NearStop α))
    (departure : α) (rounds : Nat) (stop : StopId) (label : Arrival α) : Prop :=
  ∃ a legs, Journey calm.timetable access departure a legs stop label.time ∧
    label.Totals isTrain a legs ∧
    (∀ leg ∈ legs.tail, leg.departure - leg.ready ≤ hasty.parameters.maxTransferWait) ∧
    (calm.Unrefused access departure legs → ∀ state, calm.ByRound access departure rounds state →
      Within state.best stop label.time)

variable {hasty calm : TransitRouter α} {isTrain : Route α → Bool} {access : List (NearStop α)}
  {departure : α} {done rounds : Nat} {state next : RoundState α} {stop : StopId}
  {label : Arrival α}

theorem Unrefused.of_concat {legs : List (Leg α)} {leg : Leg α}
    (h : calm.Unrefused access departure (legs ++ [leg])) :
    calm.Unrefused access departure legs := by
  intro k found state hk hfound
  refine h k found state hk ?_
  rw [List.getElem?_append_left (List.getElem?_eq_some_iff.mp hfound).1]
  exact hfound

/-- Journeys of at most two rides are not refused. -/
theorem unrefused_of_length_le {legs : List (Leg α)} (h : legs.length ≤ 2) :
    calm.Unrefused access departure legs := by
  intro k leg state hk hleg
  have hlt := (List.getElem?_eq_some_iff.mp hleg).1
  omega

/-! ## States after some rounds -/

theorem ByRound.eq_after (h : calm.ByRound access departure rounds next)
    (hstate : calm.After access departure rounds state) : next = state := by
  obtain ⟨done, hle, hafter, rfl | hnone⟩ := h
  · exact hafter.unique hstate
  · obtain rfl := Nat.le_antisymm hle (hafter.le_of_improved_eq_nil hnone hstate)
    exact hafter.unique hstate

theorem After.exists_start (h : calm.After access departure done state) :
    ∃ start, calm.After access departure 0 start := by
  induction h with
  | start henter => exact ⟨_, .start henter⟩
  | round _ _ _ ih => exact ih

section Course

variable [LawfulScalar α] {router : TransitRouter α} (hrouter : router.Sound isTrain)
  (haccess : ∀ a ∈ access, router.timetable.contains a.stop = true)

include hrouter haccess

/-- One round more makes no arrival later, and takes all offers into account. -/
theorem ByRound.exists_before (h : router.ByRound access departure (rounds + 1) next) :
    ∃ state, router.ByRound access departure rounds state ∧
      (∀ stop time, Within state.best stop time → Within next.best stop time) ∧
      ∀ here leg source target, router.Offers state.best here leg source target →
        Within next.best target leg.arrival := by
  obtain ⟨done, hle, hafter, hend⟩ := h
  rcases Nat.eq_or_lt_of_le hle with rfl | hlt
  · cases hafter with
    | @round _ state _ hbefore hmarked hround =>
      obtain ⟨rides, hadvances⟩ := hbefore.advances hrouter haccess hround
      exact ⟨state, ⟨rounds, Nat.le_refl _, hbefore, .inl rfl⟩, fun _ _ => hadvances.within,
        fun _ _ _ _ => (hbefore.relaxed hrouter haccess).within_of_offers hadvances⟩
  · have hnone := hend.resolve_left (Nat.ne_of_lt hlt)
    refine ⟨next, ⟨done, Nat.le_of_lt_succ hlt, hafter, .inr hnone⟩, fun _ _ => id, ?_⟩
    intro here leg source target hoffer
    exact hafter.relaxed hrouter haccess here leg source target hoffer
      (hnone ▸ List.not_mem_nil)

/-- What is reached by a time stays reached by it. -/
theorem After.within_of_le {later : Nat} (h : router.After access departure done state)
    (hlater : router.After access departure later next) (hle : done ≤ later) {time : α}
    (hwithin : Within state.best stop time) : Within next.best stop time := by
  obtain ⟨known, hknown, htime⟩ := hwithin
  have hlt : stop.index < next.best.size := by
    rw [(hlater.fits hrouter haccess).size, ← (h.fits hrouter haccess).size]
    exact (Array.getElem?_eq_some_iff.mp hknown).1
  have hfound := Array.getElem?_eq_getElem hlt
  rcases h.label_cases hrouter haccess hlater hle hfound with
    hsame | ⟨-, -, known', hknown', hearlier⟩
  · cases hknown.symm.trans hsame
    exact ⟨_, hfound, htime⟩
  · cases hknown.symm.trans hknown'
    exact ⟨_, hfound, Scalar.le_trans (Scalar.le_of_lt hearlier) htime⟩

/-- A search that has as many rounds as it may have reaches at its end what it reaches by a round of
that number. -/
theorem within_of_byRound {tree : TransitTree α} (htree : router.tree access departure = .ok tree)
    (hle : rounds ≤ router.parameters.maxRounds) {time : α}
    (h : ∀ state, router.ByRound access departure rounds state → Within state.best stop time) :
    Within tree.arrivals stop time := by
  obtain ⟨last, hlast, hbest, hrounds, hend⟩ := exists_after_of_tree htree
  rw [← hbest]
  rcases Nat.lt_trichotomy rounds tree.rounds with hlt | rfl | hlt
  · obtain ⟨state, hstate, -⟩ := hlast.exists_earlier hlt
    exact hstate.within_of_le hrouter haccess hlast (Nat.le_of_lt hlt)
      (h state ⟨rounds, Nat.le_refl _, hstate, .inl rfl⟩)
  · exact h last ⟨_, Nat.le_refl _, hlast, .inl rfl⟩
  · refine h last ⟨_, Nat.le_of_lt hlt, hlast, .inr (hend.resolve_right ?_)⟩
    omega

end Course

/-! ## The first change -/

namespace Hastier

variable (h : Hastier hasty calm)

include h

/-- Nobody waits for a change before the first ride. -/
theorem round_eq {best : Array (Arrival α)}
    (hbest : ∀ (stop : StopId) (label : Arrival α), best[stop.index]? = some label →
      label.legs = 0) (marked : List StopId) :
    hasty.round marked best = calm.round marked best := by
  refine round_congr h.timetable h.isTrain (fun route position stop boarded => ?_) marked
  unfold board
  cases hhere : fetch best stop.index with
  | error _ => rfl
  | ok here =>
    have hlegs := hbest stop here (fetch_eq_ok.mp hhere)
    simp only [bind, Except.bind, hlegs, Nat.lt_irrefl, decide_false, Bool.false_and]

theorem after_start (hstate : hasty.After access departure 0 state) :
    calm.After access departure 0 state := by
  cases hstate with
  | start henter =>
    rw [nowhere, h.timetable] at henter
    exact .start henter

variable [LawfulScalar α] (hhasty : hasty.Sound isTrain)
  (haccess : ∀ a ∈ access, hasty.timetable.contains a.stop = true)

include hhasty haccess

/-- Up to the first ride the searches are the same. -/
theorem after_of_le_one (hstate : hasty.After access departure done state) (hle : done ≤ 1) :
    calm.After access departure done state := by
  cases hstate with
  | start henter => exact h.after_start (.start henter)
  | round hbefore hmarked hround =>
    obtain rfl := Nat.le_zero.mp (Nat.le_of_succ_le_succ hle)
    rw [h.round_eq fun stop label hlabel => ?_] at hround
    · exact .round (h.after_start hbefore) hmarked hround
    · rcases hbefore.lastImproved hhasty haccess hlabel with rfl | hlast
      · rfl
      · exact Nat.le_zero.mp hlast.le

/-- The first ride and the second one are not refused to the calm search either. -/
theorem not_refuses (hstate : hasty.After access departure done state) (hle : done ≤ 1)
    (hnext : calm.ByRound access departure done next) {here : Arrival α} {leg : Leg α}
    {source target : StopId} (hoffer : hasty.Offers state.best here leg source target) :
    ¬ calm.Refuses next.best leg := by
  rintro ⟨call, here', trip, time, hcall, hhere, hlegs, hfirst, htime, hlong⟩
  rw [hnext.eq_after (h.after_of_le_one hhasty haccess hstate hle)] at hhere
  obtain ⟨call', hcall', rfl⟩ := hoffer.runs.boards
  cases hcall.symm.trans hcall'
  cases hhere.symm.trans hoffer.known
  cases hfirst.symm.trans hoffer.first
  cases htime.symm.trans hoffer.runs.departure
  exact hoffer.wait hlegs (Scalar.lt_of_le_of_lt h.le hlong)

variable (hcalm : calm.Sound isTrain)

include hcalm

/-- Where the hasty search has an arrival, the calm one has none before all times. -/
theorem neg_infinity_lt (hstate : hasty.After access departure done state)
    (hlabel : state.best[stop.index]? = some label) (hreached : label.isReached = true)
    {rounds : Nat} (hnext : calm.After access departure rounds next) {found : Arrival α}
    (hfound : next.best[stop.index]? = some found) : -Scalar.infinity < found.time := by
  have habove := (LawfulScalar.isFinite_iff.mp hreached).1
  obtain ⟨start, hstart⟩ := hstate.exists_start
  have haccess' : ∀ a ∈ access, calm.timetable.contains a.stop = true := h.timetable ▸ haccess
  rcases (h.after_start hstart).label_cases hcalm haccess' hnext (Nat.zero_le _) hfound with
    hfirst | ⟨-, hlt, -⟩
  · rcases hstart.label_cases hhasty haccess hstate (Nat.zero_le _) hlabel with
      hsame | ⟨-, -, known, hknown, hearlier⟩
    · cases hfirst.symm.trans hsame
      exact habove
    · cases hfirst.symm.trans hknown
      exact Scalar.lt_trans habove hearlier
  · exact hlt

/-! ## Later changes -/

/-- A ride that is not refused is taken, or an earlier one. -/
theorem exists_offer (hstate : hasty.After access departure done state) {here : Arrival α}
    {leg : Leg α} {source target : StopId}
    (hoffer : hasty.Offers state.best here leg source target)
    {before : RoundState α} (hbefore : calm.ByRound access departure done before)
    (hearly : Within before.best source here.time) (hrefuses : ¬ calm.Refuses before.best leg) :
    ∃ here' leg', calm.Offers before.best here' leg' source target ∧
      leg'.arrival ≤ leg.arrival := by
  obtain ⟨here', hknown, hle⟩ := hearly
  obtain ⟨rounds, -, hafter, -⟩ := hbefore
  have habove :=
    h.neg_infinity_lt hhasty haccess hcalm hstate hoffer.known hoffer.isReached hafter hknown
  have hreached : here'.isReached = true := LawfulScalar.isFinite_iff.mpr
    ⟨habove, Scalar.lt_of_le_of_lt hle (Scalar.lt_infinity_of_isFinite hoffer.isReached)⟩
  have hruns : leg.Runs calm.timetable source target := h.timetable ▸ hoffer.runs
  have hcatch : here'.time ≤ leg.departure :=
    Scalar.le_trans hle (hoffer.ready ▸ hoffer.runs.catches)
  obtain ⟨call, hcall, rfl⟩ := hruns.boards
  obtain ⟨leg', hleg', hearlier⟩ := exists_offer_of_wait hcalm.timetable hknown hreached hruns
    hcatch fun first time hfirst htime hlegs hlong =>
      hrefuses ⟨call, here', first, time, hcall, hknown, hlegs, hfirst, htime, hlong⟩
  exact ⟨here', leg', hleg', hearlier⟩

variable (hnumber : Scalar.IsNumber hasty.parameters.maxTransferWait)

include hnumber

/-- One more ride of the hasty search is one more ride of the calm one, unless that is refused. -/
theorem matched_of_offers (hstate : hasty.After access departure done state) {here : Arrival α}
    {leg : Leg α} {source target : StopId}
    (hoffer : hasty.Offers state.best here leg source target) (hwalk : leg.walk = none)
    (hlegs : here.legs = done) {train : Bool}
    (htrain : fetch hasty.isTrain leg.id.index = .ok train)
    (hhere : Matched hasty calm isTrain access departure done source here) :
    Matched hasty calm isTrain access departure (done + 1) target
      (here.ride leg.arrival (leg.arrival - leg.departure) leg.metres train) := by
  obtain ⟨a, legs, hjourney, htotals, hwaits, hmatch⟩ := hhere
  have htrain' := hhasty.train hoffer.runs.route
  cases htrain.symm.trans htrain'
  refine ⟨a, legs ++ [leg], .ride hjourney (h.timetable ▸ hoffer.runs) hoffer.ready hwalk,
    htotals.ride leg _, wait_le_of_offers hhasty hnumber hoffer htotals hwaits,
    fun hunrefused next hnext => ?_⟩
  have haccess' : ∀ a ∈ access, calm.timetable.contains a.stop = true := h.timetable ▸ haccess
  obtain ⟨before, hbefore, -, hoffers⟩ := hnext.exists_before hcalm haccess'
  have hearly := hmatch hunrefused.of_concat before hbefore
  have hrefuses : ¬ calm.Refuses before.best leg := by
    rcases Nat.lt_or_ge done 2 with hlt | hge
    · exact h.not_refuses hhasty haccess hstate (by omega) hbefore hoffer
    · refine hunrefused done leg before hge ?_ hbefore
      rw [← hlegs, htotals.legCount, List.getElem?_concat_length]
  obtain ⟨here', leg', hoffer', hle⟩ :=
    h.exists_offer hhasty haccess hcalm hstate hoffer hbefore hearly hrefuses
  obtain ⟨found, hfound, htime⟩ := hoffers here' leg' source target hoffer'
  exact ⟨found, hfound, Scalar.le_trans htime hle⟩

/-- Every arrival of the hasty search is matched. -/
theorem matched
    (hnone : ∀ stop transfers, hasty.timetable.transfersFrom stop = .ok transfers → transfers = [])
    (hstate : hasty.After access departure done state) :
    ∀ (stop : StopId) (label : Arrival α), state.best[stop.index]? = some label →
      label.isReached = true → Matched hasty calm isTrain access departure done stop label := by
  have haccess' : ∀ a ∈ access, calm.timetable.contains a.stop = true := h.timetable ▸ haccess
  induction hstate with
  | @start state henter =>
    intro stop label hlabel hreached
    obtain ⟨state', hstate', hsince, -⟩ := enter_spec haccess
    cases henter.symm.trans hstate'
    rcases hsince.cases hlabel with ⟨-, hold⟩ | ⟨-, ⟨a, hnear, rfl, rfl⟩, -⟩
    · cases eq_unreached_of_nowhere hold
      exact absurd (Scalar.lt_infinity_of_isFinite hreached) (Scalar.lt_irrefl _)
    · refine ⟨a, [], .enter hnear, ⟨rfl, rfl, rfl, rfl, rfl, rfl⟩, nofun, fun _ next hnext => ?_⟩
      rw [hnext.eq_after (h.after_start (.start henter))]
      exact ⟨_, hlabel, Scalar.le_refl (Scalar.isNumber_of_isFinite hreached)⟩
  | @round done before next hbefore hmarked hround ih =>
    intro stop label hlabel hreached
    have hnext := After.round hbefore hmarked hround
    obtain ⟨rides, hadvances⟩ := hbefore.advances hhasty haccess hround
    rcases hadvances.since.cases hlabel with ⟨-, hold⟩ | ⟨hstop, hnew, -⟩
    · obtain ⟨a, legs, hjourney, htotals, hwaits, hmatch⟩ := ih stop label hold hreached
      refine ⟨a, legs, hjourney, htotals, hwaits, fun hunrefused later hlater => ?_⟩
      obtain ⟨earlier, hearlier, hkept, -⟩ := hlater.exists_before hcalm haccess'
      exact hkept stop label.time (hmatch hunrefused earlier hearlier)
    · have hlegs := hnext.legs_eq hhasty haccess hstop hlabel
      rcases hnew with ⟨here, leg, source, train, hoffer, hwalk, htrain, rfl⟩ |
        ⟨_, _, transfers, transfer, -, -, htransfers, htransfer, -⟩
      · exact h.matched_of_offers hhasty haccess hcalm hnumber hbefore hoffer hwalk
          (Nat.succ.inj hlegs) htrain (ih source here hoffer.known hoffer.isReached)
      · rw [hnone _ _ htransfers] at htransfer
        exact absurd htransfer List.not_mem_nil

end Hastier

/-! ## Two limits on waits -/

theorem hastier_of_new {timetable : Timetable α} {parameters : RouterParameters α}
    {shorter longer : α} (hle : shorter ≤ longer)
    (hhasty : TransitRouter.new timetable { parameters with maxTransferWait := shorter } isTrain =
      .ok hasty)
    (hcalm : TransitRouter.new timetable { parameters with maxTransferWait := longer } isTrain =
      .ok calm) : Hastier hasty calm := by
  obtain ⟨-, rfl⟩ := eq_of_new hhasty
  obtain ⟨-, rfl⟩ := eq_of_new hcalm
  exact ⟨rfl, rfl, rfl, hle⟩

section Limits

variable [LawfulScalar α]

/-- With no limit on waits nothing is refused. -/
theorem unrefused_of_infinity (h : calm.parameters.maxTransferWait = Scalar.infinity)
    (legs : List (Leg α)) : calm.Unrefused access departure legs := by
  rintro k leg state - - - ⟨_, _, _, _, -, -, -, -, -, hlong⟩
  rw [h] at hlong
  exact Scalar.not_infinity_lt _ hlong

/-- What is reached with a lower limit on waits is reached with a higher one, and no later, if
nobody walks between stops and one of three things holds: the arrival has at most two rides, there
is no limit any more, or it has a journey along which the search with the higher limit is never
refused the third ride or a later one for being at its stop too early. -/
theorem tree_of_longer_wait {draft : TimetableDraft α} {timetable : Timetable α}
    {hasty calm : TransitRouter α} (parameters : RouterParameters α) {shorter longer : α}
    (isTrain : Route α → Bool) (access : List (NearStop α)) (departure : α)
    (hle : shorter ≤ longer) (hdraft : draft.Drafted) (hbuild : draft.build = .ok timetable)
    (hstops : timetable.stopCount < 2 ^ 32) (hroutes : timetable.routeCount < 2 ^ 32)
    (hnone : ∀ stop transfers, timetable.transfersFrom stop = .ok transfers → transfers = [])
    (hhasty : TransitRouter.new timetable { parameters with maxTransferWait := shorter } isTrain =
      .ok hasty)
    (hcalm : TransitRouter.new timetable { parameters with maxTransferWait := longer } isTrain =
      .ok calm)
    (haccess : ∀ a ∈ access, timetable.contains a.stop = true) :
    ∃ hastyTree calmTree, hasty.tree access departure = .ok hastyTree ∧
      calm.tree access departure = .ok calmTree ∧
      ∀ (stop : StopId) (label : Arrival α), hastyTree.arrival? stop = some label →
        ∃ a legs, Journey timetable access departure a legs stop label.time ∧
          label.Totals isTrain a legs ∧ (∀ leg ∈ legs.tail, leg.departure - leg.ready ≤ shorter) ∧
          (label.legs ≤ 2 ∨ longer = Scalar.infinity ∨ calm.Unrefused access departure legs →
            ∃ earlier, calmTree.arrival? stop = some earlier ∧ earlier.time ≤ label.time) := by
  have htimetable := hdraft.sound_build hbuild hstops hroutes
  have hhastier := hastier_of_new hle hhasty hcalm
  obtain ⟨hsound, hvalid, hsame, hshorter⟩ := sound_of_new htimetable hhasty
  obtain ⟨hsound', -, rfl, hlonger⟩ := sound_of_new htimetable hcalm
  have haccess' : ∀ a ∈ access, hasty.timetable.contains a.stop = true := hsame ▸ haccess
  have hnumber : Scalar.IsNumber hasty.parameters.maxTransferWait :=
    hshorter ▸ RouterParameters.isNumber_of_validate hvalid
  obtain ⟨hastyTree, htree⟩ := exists_tree hsound haccess' departure
  obtain ⟨calmTree, htree'⟩ := exists_tree hsound' haccess departure
  refine ⟨hastyTree, calmTree, htree, htree', fun stop label hlabel => ?_⟩
  obtain ⟨last, hlast, hbest, hrounds, -⟩ := exists_after_of_tree htree
  obtain ⟨hknown, hreached⟩ := Option.filter_eq_some_iff.mp hlabel
  rw [← hbest] at hknown
  obtain ⟨a, legs, hjourney, htotals, hwaits, hmatch⟩ := hhastier.matched hsound haccess' hsound'
    hnumber (hsame ▸ hnone) hlast stop label hknown hreached
  rw [hshorter] at hwaits
  refine ⟨a, legs, hjourney, htotals, hwaits, fun hcases => ?_⟩
  have hunrefused : calm.Unrefused access departure legs := by
    rcases hcases with hfew | hinfinity | hunrefused
    · exact unrefused_of_length_le (htotals.legCount ▸ hfew)
    · refine unrefused_of_infinity ?_ legs
      rw [hlonger]
      exact hinfinity
    · exact hunrefused
  obtain ⟨found, hfound, htime⟩ := within_of_byRound hsound' haccess htree'
    (hhastier.maxRounds ▸ hrounds) (hmatch hunrefused)
  obtain ⟨last', hlast', hbest', -⟩ := exists_after_of_tree htree'
  have habove := hhastier.neg_infinity_lt hsound haccess' hsound' hlast hknown hreached hlast'
    (hbest' ▸ hfound)
  have hbelow := Scalar.lt_of_le_of_lt htime (Scalar.lt_infinity_of_isFinite hreached)
  exact ⟨found, Option.filter_eq_some_iff.mpr
    ⟨hfound, LawfulScalar.isFinite_iff.mpr ⟨habove, hbelow⟩⟩, htime⟩

end Limits

end TransitRouter

/-! ## A train that comes too early -/

omit [Scalar α] in
/-- Nobody walks between stops where there are no transfers. -/
theorem Timetable.eq_nil_of_transfersFrom {timetable : Timetable α}
    (hnone : ∀ group ∈ timetable.transfers, group.isEmpty = true) (stop : StopId)
    (transfers : List (Transfer α)) (h : timetable.transfersFrom stop = .ok transfers) :
    transfers = [] := by
  rw [transfersFrom, map_eq_pure_bind, bind_eq_ok] at h
  obtain ⟨group, hgroup, hlist⟩ := h
  cases hlist
  have hempty := hnone group (Array.mem_of_getElem? (fetch_eq_ok.mp hgroup))
  rw [Array.isEmpty_iff.mp hempty]

/-- A bus to the second stop, a train and a slow bus from there to the third one, and a bus from
there to the last one, which leaves just after the slow bus comes. -/
def trainOrBus : Except (TransitError Float) (TimetableDraft Float) := do
  let draft := (TimetableDraft.empty.addStop ⟨0, 0⟩).2
  let draft := (draft.addStop ⟨1000, 0⟩).2
  let draft := (draft.addStop ⟨9000, 0⟩).2
  let draft := (draft.addStop ⟨9000, 2000⟩).2
  let (_, draft) ← draft.addRoute "A" .bus [⟨⟨0⟩, 0, 0, none⟩, ⟨⟨1⟩, 10, 10, none⟩] [0]
  let (_, draft) ← draft.addRoute "T" .rail [⟨⟨1⟩, 0, 0, none⟩, ⟨⟨2⟩, 40, 40, none⟩] [60]
  let (_, draft) ← draft.addRoute "B" .bus [⟨⟨1⟩, 0, 0, none⟩, ⟨⟨2⟩, 985, 985, none⟩] [15]
  let (_, draft) ← draft.addRoute "C" .bus [⟨⟨2⟩, 0, 0, none⟩, ⟨⟨3⟩, 95, 95, none⟩] [1005]
  return draft

theorem drafted_trainOrBus : Ok trainOrBus TimetableDraft.Drafted := by
  have hstops := TimetableDraft.Drafted.empty.addStop (α := Float) ⟨0, 0⟩
    |>.addStop ⟨1000, 0⟩ |>.addStop ⟨9000, 0⟩ |>.addStop ⟨9000, 2000⟩
  refine Ok.bind (Q := fun next => next.2.Drafted) (fun _ h => hstops.addRoute h) fun a ha => ?_
  refine Ok.bind (Q := fun next => next.2.Drafted) (fun _ h => ha.addRoute h) fun t ht => ?_
  refine Ok.bind (Q := fun next => next.2.Drafted) (fun _ h => ht.addRoute h) fun b hb => ?_
  refine Ok.bind (Q := fun next => next.2.Drafted) (fun _ h => hb.addRoute h) fun c hc => ?_
  exact Ok.pure hc

theorem tree_of_longer_wait_trainOrBus : ∃ draft timetable hasty calm hastyTree calmTree,
    (10 : Float) ≤ 100 ∧ trainOrBus = .ok draft ∧ draft.Drafted ∧ draft.build = .ok timetable ∧
      timetable.stopCount < 2 ^ 32 ∧ timetable.routeCount < 2 ^ 32 ∧
      (∀ stop transfers, timetable.transfersFrom stop = .ok transfers → transfers = []) ∧
      TransitRouter.new timetable { RouterParameters.standard with maxTransferWait := 10 }
        (fun _ => false) = .ok hasty ∧
      TransitRouter.new timetable { RouterParameters.standard with maxTransferWait := 100 }
        (fun _ => false) = .ok calm ∧
      timetable.contains ⟨0⟩ = true ∧ hasty.tree [⟨⟨0⟩, 0⟩] 0 = .ok hastyTree ∧
      calm.tree [⟨⟨0⟩, 0⟩] 0 = .ok calmTree ∧
      ∀ (stop : StopId) (label : Arrival Float), hastyTree.arrival? stop = some label →
        label.legs ≤ 2 →
          ∃ earlier, calmTree.arrival? stop = some earlier ∧ earlier.time ≤ label.time := by
  have hdraft := drafted_trainOrBus _ rfl
  have hle : (10 : Float) ≤ 100 := by decide +kernel
  obtain ⟨hastyTree, calmTree, hhasty, hcalm, hmatched⟩ := TransitRouter.tree_of_longer_wait
    .standard (fun _ => false) [⟨⟨0⟩, 0⟩] 0 hle hdraft rfl (by decide) (by decide)
    (Timetable.eq_nil_of_transfersFrom (by decide)) rfl rfl (by decide)
  refine ⟨_, _, _, _, hastyTree, calmTree, hle, rfl, hdraft, rfl, by decide, by decide,
    Timetable.eq_nil_of_transfersFrom (by decide), rfl, rfl, by decide, hhasty, hcalm,
    fun stop label hlabel hfew => ?_⟩
  obtain ⟨_, _, _, _, _, hearlier⟩ := hmatched stop label hlabel
  exact hearlier (.inl hfew)

/-- Whoever waits no longer than 10 takes the slow bus and the one after it. Whoever waits up to 100
takes the train, is there 900 earlier, and does not wait for the last bus. -/
theorem not_tree_of_longer_wait : ∃ draft timetable hasty calm,
    (10 : Float) ≤ 100 ∧ trainOrBus = .ok draft ∧ draft.Drafted ∧ draft.build = .ok timetable ∧
      timetable.stopCount < 2 ^ 32 ∧ timetable.routeCount < 2 ^ 32 ∧
      (∀ stop transfers, timetable.transfersFrom stop = .ok transfers → transfers = []) ∧
      TransitRouter.new timetable { RouterParameters.standard with maxTransferWait := 10 }
        (fun _ => false) = .ok hasty ∧
      TransitRouter.new timetable { RouterParameters.standard with maxTransferWait := 100 }
        (fun _ => false) = .ok calm ∧
      timetable.contains ⟨0⟩ = true ∧
      (∃ tree, hasty.tree [⟨⟨0⟩, 0⟩] 0 = .ok tree ∧ (tree.arrival? ⟨3⟩).isSome = true) ∧
      ∃ tree, calm.tree [⟨⟨0⟩, 0⟩] 0 = .ok tree ∧ (tree.arrival? ⟨3⟩).isSome = false :=
  ⟨_, _, _, _, by decide +kernel, rfl, drafted_trainOrBus _ rfl, rfl, by decide, by decide,
    Timetable.eq_nil_of_transfersFrom (by decide), rfl, rfl, by decide,
    exists_of_any (by decide +kernel), exists_of_any (by decide +kernel)⟩

end ZoneSkims
