import ZoneSkims.Proofs.Transit.Optimality

/-!
# Leaving earlier

Who leaves earlier can take the same rides. A search finds out about this as long as nobody has to
walk on from a stop that was reached on foot: walks are followed from the stops only that a vehicle
has improved, and a stop that was reached on foot before the vehicle comes is not among them.

* `TransitRouter.Direct`: whoever comes to a stop on foot can walk on to another one directly.
* `TransitRouter.Spread`: the invariant of the rounds.
* `TransitRouter.tree_of_earlier`: leaving earlier, no stop is reached later.
* `not_tree_of_earlier`: a stop that is reached only when leaving later.
-/

namespace ZoneSkims

variable {α : Type} [Scalar α]

/-! ## Direct walks -/

/-- A transfer from a stop takes a finite time, and whoever came to the stop on foot could have
walked to where it leads without passing through the stop and without being later. -/
structure Direct (timetable : Timetable α) (access : List (NearStop α)) (departure : α)
    (source : StopId) (transfer : Transfer α) : Prop where
  isFinite : Scalar.isFinite transfer.walkTime = true
  access : ∀ a ∈ access, a.stop = source → ∃ b ∈ access, b.stop = transfer.target ∧
    departure + b.walkTime ≤ departure + a.walkTime + transfer.walkTime
  transfers : ∀ (origin : StopId) (transfers : List (Transfer α)), ∀ first ∈ transfers,
    timetable.transfersFrom origin = .ok transfers → first.target = source →
      transfer.target = origin ∨ ∃ second ∈ transfers, second.target = transfer.target ∧
        ∀ time, Scalar.isFinite time = true →
          time + second.walkTime ≤ time + first.walkTime + transfer.walkTime

/-- The walk after a ride, if there is one, is direct. -/
def Leg.WalksDirectly (timetable : Timetable α) (access : List (NearStop α)) (departure : α)
    (leg : Leg α) : Prop :=
  ∀ transfer call, leg.walk = some transfer → leg.route.calls[leg.alighting]? = some call →
    Direct timetable access departure call.stop transfer

theorem Journey.walksDirectly {timetable : Timetable α} {access : List (NearStop α)}
    {departure later time : α} {a : NearStop α} {legs : List (Leg α)} {stop : StopId}
    (h : Journey timetable access later a legs stop time)
    (hall : ∀ source transfers, timetable.transfersFrom source = .ok transfers →
      ∀ transfer ∈ transfers, Direct timetable access departure source transfer) :
    ∀ leg ∈ legs, leg.WalksDirectly timetable access departure := by
  induction h with
  | enter _ => exact fun _ hleg => absurd hleg List.not_mem_nil
  | ride _ _ _ hwalk ih =>
    intro l hl
    rcases List.mem_append.mp hl with hl | hl
    · exact ih l hl
    · cases List.mem_singleton.mp hl
      intro transfer call hsome
      rw [hwalk] at hsome
      cases hsome
  | rideAndWalk _ hruns _ hwalk htransfers htransfer ih =>
    intro l hl
    rcases List.mem_append.mp hl with hl | hl
    · exact ih l hl
    · cases List.mem_singleton.mp hl
      intro transfer call hsome hcall
      obtain ⟨call', hcall', rfl⟩ := hruns.alights
      cases hwalk.symm.trans hsome
      cases hcall.symm.trans hcall'
      exact hall _ _ htransfers _ htransfer

variable [LawfulScalar α]

namespace TransitRouter

variable {router : TransitRouter α} {isTrain : Route α → Bool} {access : List (NearStop α)}
  {departure later : α} {before best : Array (Arrival α)} {marked : List StopId} {done : Nat}

/-! ## Walks of a search -/

/-- After `done` rounds, what is complete for journeys without walks accounts for all direct walks
from the stops that were reached. -/
structure Spread (router : TransitRouter α) (access : List (NearStop α)) (departure : α)
    (done : Nat) (marked : List StopId) (best : Array (Arrival α)) : Prop where
  complete : router.Complete access departure done marked best
  walked : ∀ {source transfers transfer here}, best[source.index]? = some here →
    here.isReached = true → router.timetable.transfersFrom source = .ok transfers →
      transfer ∈ transfers → Direct router.timetable access departure source transfer →
        Within best transfer.target (here.time + transfer.walkTime)

theorem spread_start {state : RoundState α} (hdeparture : Scalar.IsNumber departure)
    (hwalks : ∀ a ∈ access, Scalar.isFinite a.walkTime = true)
    (habove : ∀ a ∈ access, -Scalar.infinity < departure + a.walkTime)
    (hsince : RoundState.Since (Entered access departure) router.nowhere state)
    (hwithin : ∀ a ∈ access, Scalar.IsNumber (departure + a.walkTime) →
      Within state.best a.stop (departure + a.walkTime)) :
    router.Spread access departure 0 state.improved state.best := by
  refine ⟨complete_start hdeparture hwalks habove hsince hwithin,
    fun {source transfers transfer here} hhere hreached _ _ hdirect => ?_⟩
  rcases hsince.cases hhere with ⟨-, hold⟩ | ⟨-, ⟨a, hnear, rfl, rfl⟩, -⟩
  · cases eq_unreached_of_nowhere hold
    exact absurd (Scalar.lt_infinity_of_isFinite hreached) (Scalar.lt_irrefl _)
  · obtain ⟨b, hb, htarget, hle⟩ := hdirect.access a hnear rfl
    obtain ⟨label, hlabel, hle'⟩ := hwithin b hb (Scalar.isNumber_left hle)
    exact ⟨label, htarget ▸ hlabel, Scalar.le_trans hle' hle⟩

namespace Spread

variable {rides next : RoundState α} {source : StopId} {transfers : List (Transfer α)}
  {transfer : Transfer α}

/-- A direct walk from a stop that is reached in time leads to one that is reached in time. -/
theorem within_of_walk (htimetable : router.timetable.Sound) (hfits : router.Fits marked best)
    (h : router.Spread access departure done marked best) {time : α}
    (hsource : Within best source time)
    (htransfers : router.timetable.transfersFrom source = .ok transfers)
    (htransfer : transfer ∈ transfers)
    (hdirect : Direct router.timetable access departure source transfer) :
    Within best transfer.target (time + transfer.walkTime) := by
  obtain ⟨here, hhere, hle⟩ := hsource
  have hsum : here.time + transfer.walkTime ≤ time + transfer.walkTime :=
    LawfulScalar.add_le_add_right hdirect.isFinite hle
  by_cases hlt : here.time < Scalar.infinity
  · have hreached : here.isReached = true :=
      LawfulScalar.isFinite_iff.mpr ⟨h.complete.above _ _ hhere, hlt⟩
    obtain ⟨label, hlabel, hle'⟩ := h.walked hhere hreached htransfers htransfer hdirect
    exact ⟨label, hlabel, Scalar.le_trans hle' hsum⟩
  · -- A walk that starts at infinity ends there.
    have hcontained : router.timetable.contains source = true :=
      Timetable.contains_iff.mpr (hfits.size ▸ (Array.getElem?_eq_some_iff.mp hhere).1)
    obtain ⟨htarget, hnegative⟩ :=
      htimetable.transfer_sound hcontained htransfers htransfer
    have hinfinity :=
      Scalar.le_of_not_lt (Scalar.isNumber_left hle) Scalar.isNumber_infinity hlt
    have hadd := LawfulScalar.le_add (Scalar.isNumber_right hsum) hnegative
    exact within_of_infinity_le hfits htarget
      (Scalar.le_trans hinfinity (Scalar.le_trans hle hadd))

/-- The direct walk from a stop that was reached on foot, over a transfer from a stop that the rides
of a round have improved. -/
theorem within_of_walked (htimetable : router.timetable.Sound)
    (hfits : router.Fits marked before) (hnext : router.Advances marked before rides next)
    {here : Arrival α} (hwalked : Walked router.timetable rides source here)
    (hreached : here.isReached = true)
    (htransfers : router.timetable.transfersFrom source = .ok transfers)
    (htransfer : transfer ∈ transfers)
    (hdirect : Direct router.timetable access departure source transfer) :
    Within next.best transfer.target (here.time + transfer.walkTime) := by
  obtain ⟨origin, label, others, first, horigin, hlabel, hothers, hfirst, rfl, rfl⟩ := hwalked
  have hcontained : router.timetable.contains origin = true :=
    Timetable.contains_iff.mpr (hfits.size ▸ hnext.since_rides.lt_size_of_mem horigin)
  obtain ⟨hcontained', hnegative⟩ := htimetable.transfer_sound hcontained hothers hfirst
  have hle : label.time ≤ label.time + first.walkTime :=
    LawfulScalar.le_add (Scalar.isNumber_of_isFinite hreached) hnegative
  have hfinite : Scalar.isFinite label.time = true := by
    rcases hnext.since_rides.cases hlabel with ⟨hnot, -⟩ | ⟨-, hridden, -⟩
    · exact absurd horigin hnot
    · exact LawfulScalar.isFinite_iff.mpr ⟨neg_infinity_lt_of_ridden htimetable hridden,
        Scalar.lt_of_le_of_lt hle (Scalar.lt_infinity_of_isFinite hreached)⟩
  rcases hdirect.transfers origin others first hfirst hothers rfl with
    hback | ⟨second, hsecond, htarget, hshort⟩
  · -- The rider is back where the ride had ended.
    have hlate : label.time + first.walkTime ≤ label.time + first.walkTime + transfer.walkTime :=
      LawfulScalar.le_add
        (Scalar.isNumber_add (Scalar.isNumber_of_isFinite hreached) hdirect.isFinite)
        (htimetable.transfer_sound hcontained' htransfers htransfer).2
    obtain ⟨known, hknown, hle'⟩ := hnext.walked.within
      ⟨label, hlabel, Scalar.le_refl (Scalar.isNumber_of_isFinite hfinite)⟩
    exact ⟨known, hback ▸ hknown, Scalar.le_trans hle' (Scalar.le_trans hle hlate)⟩
  · obtain ⟨known, hknown, hle'⟩ := hnext.walks origin horigin label others second hlabel hothers
      hsecond (Scalar.isNumber_left (hshort label.time hfinite))
    exact ⟨known, htarget ▸ hknown, Scalar.le_trans hle' (hshort label.time hfinite)⟩

theorem succ (htimetable : router.timetable.Sound)
    (hpatient : router.parameters.maxTransferWait = Scalar.infinity)
    (hfits : router.Fits marked before) (h : router.Spread access departure done marked before)
    (hnext : router.Advances marked before rides next) :
    router.Spread access departure (done + 1) next.improved next.best := by
  refine ⟨h.complete.succ htimetable hpatient hfits hnext,
    fun {source transfers transfer here} hhere hreached htransfers htransfer hdirect => ?_⟩
  rcases hnext.walked.cases hhere with hride | hwalk
  · by_cases hsource : source ∈ rides.improved
    · exact hnext.walks source hsource here transfers transfer hride htransfers htransfer
        (Scalar.isNumber_add (Scalar.isNumber_of_isFinite hreached) hdirect.isFinite)
    · have hold := (hnext.since_rides.kept source hsource).symm.trans hride
      exact hnext.within (h.walked hold hreached htransfers htransfer hdirect)
  · exact within_of_walked htimetable hfits hnext hwalk hreached htransfers htransfer hdirect

end Spread

/-! ## Journeys that start later -/

/-- The journeys of at most so many rides that leave later, and walk directly, are accounted for. -/
def Covers (router : TransitRouter α) (access : List (NearStop α)) (departure later : α)
    (rides : Nat) (best : Array (Arrival α)) : Prop :=
  ∀ a legs stop time, Journey router.timetable access later a legs stop time →
    (∀ leg ∈ legs, leg.WalksDirectly router.timetable access departure) → legs.length ≤ rides →
      Within best stop time

/-- One more leg is accounted for when its ride is. -/
theorem Covers.concat (htimetable : router.timetable.Sound) (hfits : router.Fits marked best)
    (hspread : router.Spread access departure done marked best) {rides : Nat}
    (hfirst : router.Covers access departure later 0 best)
    (hride : ∀ {a : NearStop α} {legs : List (Leg α)} {leg : Leg α} {source target : StopId},
      Journey router.timetable access later a legs source leg.ready →
        (∀ l ∈ legs, l.WalksDirectly router.timetable access departure) →
          legs.length ≤ rides → leg.Runs router.timetable source target →
            Within best target leg.arrival) :
    router.Covers access departure later (rides + 1) best := by
  intro a legs stop time hjourney hdirect hlength
  have hlast : ∀ {legs : List (Leg α)} {leg : Leg α}, (legs ++ [leg]).length ≤ rides + 1 →
      (∀ l ∈ legs ++ [leg], l.WalksDirectly router.timetable access departure) →
        legs.length ≤ rides ∧ (∀ l ∈ legs, l.WalksDirectly router.timetable access departure) ∧
          leg.WalksDirectly router.timetable access departure := by
    intro legs leg hlength hdirect
    refine ⟨by simpa using hlength, fun l hl => hdirect l (List.mem_append_left _ hl), ?_⟩
    exact hdirect leg (by simp)
  cases hjourney with
  | enter hnear => exact hfirst _ _ _ _ (.enter hnear) hdirect (Nat.le_refl 0)
  | ride hbefore hruns hready _ =>
    obtain ⟨hlength', hdirect', -⟩ := hlast hlength hdirect
    exact hride (hready ▸ hbefore) hdirect' hlength' hruns
  | rideAndWalk hbefore hruns hready hwalk htransfers htransfer =>
    obtain ⟨hlength', hdirect', hleg⟩ := hlast hlength hdirect
    obtain ⟨call, hcall, rfl⟩ := hruns.alights
    exact hspread.within_of_walk htimetable hfits
      (hride (hready ▸ hbefore) hdirect' hlength' hruns) htransfers htransfer
      (hleg _ call hwalk hcall)

theorem covers_start {state : RoundState α} (hlater : departure ≤ later)
    (hwalks : ∀ a ∈ access, Scalar.isFinite a.walkTime = true)
    (hwithin : ∀ a ∈ access, Scalar.IsNumber (departure + a.walkTime) →
      Within state.best a.stop (departure + a.walkTime)) :
    router.Covers access departure later 0 state.best := by
  intro a legs stop time hjourney _ hlength
  cases hjourney with
  | enter hnear =>
    obtain ⟨label, hlabel, hle⟩ := hwithin a hnear
      (Scalar.isNumber_add (Scalar.isNumber_left hlater) (hwalks a hnear))
    exact ⟨label, hlabel,
      Scalar.le_trans hle (LawfulScalar.add_le_add_right (hwalks a hnear) hlater)⟩
  | ride => simp at hlength
  | rideAndWalk => simp at hlength

omit [LawfulScalar α] in
theorem Covers.mono {rides : Nat} (h : router.Covers access departure later rides before)
    (hwithin : ∀ stop time, Within before stop time → Within best stop time) {fewer : Nat}
    (hle : fewer ≤ rides) : router.Covers access departure later fewer best :=
  fun a legs stop time hjourney hdirect hlength =>
    hwithin stop time (h a legs stop time hjourney hdirect (Nat.le_trans hlength hle))

theorem Covers.succ (htimetable : router.timetable.Sound)
    (hpatient : router.parameters.maxTransferWait = Scalar.infinity)
    {rides next : RoundState α} (hfits : router.Fits marked before)
    (hspread : router.Spread access departure done marked before)
    (hnext : router.Advances marked before rides next)
    (h : router.Covers access departure later done before) :
    router.Covers access departure later (done + 1) next.best := by
  have hfits' := hnext.fits hfits
  refine Covers.concat htimetable hfits' (hspread.succ htimetable hpatient hfits hnext)
    (h.mono (fun _ _ => hnext.within) (Nat.zero_le _)) ?_
  intro a legs leg source target hjourney hdirect hlength hruns
  exact within_of_runs htimetable hpatient hfits' hspread.complete.above
    (h a legs source leg.ready hjourney hdirect hlength) hruns
    fun here leg' hoffer => hspread.complete.isRelaxed.within_of_offers hnext hoffer

/-- Where nothing is left to go on from, journeys of any number of rides are accounted for. -/
theorem Covers.all (htimetable : router.timetable.Sound)
    (hpatient : router.parameters.maxTransferWait = Scalar.infinity)
    (hfits : router.Fits [] best) (hspread : router.Spread access departure done [] best)
    (h : router.Covers access departure later 0 best) (rides : Nat) :
    router.Covers access departure later rides best := by
  induction rides with
  | zero => exact h
  | succ rides ih =>
    refine Covers.concat htimetable hfits hspread h ?_
    intro a legs leg source target hjourney hdirect hlength hruns
    exact within_of_runs htimetable hpatient hfits hspread.complete.above
      (ih a legs source leg.ready hjourney hdirect hlength) hruns
      fun here leg' hoffer => hspread.complete.relaxed hoffer List.not_mem_nil

/-! ## Trees -/

theorem covers_of_tree (hrouter : router.Sound isTrain)
    (hpatient : router.parameters.maxTransferWait = Scalar.infinity)
    (haccess : ∀ a ∈ access, router.timetable.contains a.stop = true)
    (hlater : departure ≤ later) (hwalks : ∀ a ∈ access, Scalar.isFinite a.walkTime = true)
    (habove : ∀ a ∈ access, -Scalar.infinity < departure + a.walkTime) :
    Returns (router.tree access departure) fun tree =>
      router.Covers access departure later router.parameters.maxRounds tree.arrivals ∧
        ∀ (stop : StopId) (label : Arrival α), tree.arrivals[stop.index]? = some label →
          -Scalar.infinity < label.time := by
  refine (tree_spec hrouter haccess (I := fun done marked best =>
      router.Spread access departure done marked best ∧
        router.Covers access departure later done best)
    (fun state hsince hwithin =>
      ⟨spread_start (Scalar.isNumber_left hlater) hwalks habove hsince hwithin,
        covers_start hlater hwalks hwithin⟩)
    (fun done marked before rides next h hfits hnext =>
      ⟨h.1.succ hrouter.timetable hpatient hfits hnext,
        h.2.succ hrouter.timetable hpatient hfits h.1 hnext⟩)).mono ?_
  rintro tree ⟨marked, ⟨hspread, hcovers⟩, hfits, -, hend⟩
  refine ⟨?_, hspread.complete.above⟩
  rcases hend with rfl | hrounds
  · exact (hcovers.mono (fun _ _ => id) (Nat.zero_le _)).all hrouter.timetable hpatient hfits
      hspread _
  · exact hrounds ▸ hcovers

/-- Without a limit on waits, every stop that is reached when leaving later is reached no later when
leaving earlier, if a journey that attains the later arrival walks directly, as all journeys do when
all transfers are direct. -/
theorem tree_of_earlier {draft : TimetableDraft α} {timetable : Timetable α}
    {router : TransitRouter α} (parameters : RouterParameters α) (isTrain : Route α → Bool)
    (access : List (NearStop α)) (departure later : α) (hdraft : draft.Drafted)
    (hbuild : draft.build = .ok timetable) (hstops : timetable.stopCount < 2 ^ 32 - 1)
    (hroutes : timetable.routeCount < 2 ^ 32 - 1)
    (hnew : TransitRouter.new timetable parameters isTrain = .ok router)
    (hpatient : parameters.maxTransferWait = Scalar.infinity)
    (haccess : ∀ a ∈ access, timetable.contains a.stop = true)
    (hwalks : ∀ a ∈ access, Scalar.isFinite a.walkTime = true ∧ 0 ≤ a.walkTime)
    (hdeparture : -Scalar.infinity < departure) (hlater : departure ≤ later) :
    ∃ earlierTree laterTree, router.tree access departure = .ok earlierTree ∧
      router.tree access later = .ok laterTree ∧
      ((∀ source transfers, timetable.transfersFrom source = .ok transfers →
          ∀ transfer ∈ transfers, Direct timetable access departure source transfer) →
        ∀ stop label, laterTree.arrival? stop = some label →
          ∃ earlier, earlierTree.arrival? stop = some earlier ∧ earlier.time ≤ label.time) ∧
      ∀ stop label, laterTree.arrival? stop = some label →
        (∃ a legs, Journey timetable access later a legs stop label.time ∧
          legs.length = label.legs) ∧
        ∀ a legs, Journey timetable access later a legs stop label.time →
          legs.length ≤ label.legs →
            (∀ leg ∈ legs, leg.WalksDirectly timetable access departure) →
              ∃ earlier, earlierTree.arrival? stop = some earlier ∧ earlier.time ≤ label.time := by
  have htimetable := hdraft.sound_build hbuild (by omega) (by omega)
  obtain ⟨hrouter, hvalid, rfl, rfl⟩ := sound_of_new htimetable hnew
  have habove : ∀ a ∈ access, -Scalar.infinity < departure + a.walkTime := fun a hnear =>
    Scalar.lt_of_lt_of_le hdeparture
      (Scalar.le_add_of_isFinite (Scalar.isNumber_left hlater) (hwalks a hnear).1
        (hwalks a hnear).2)
  obtain ⟨earlierTree, hearlier, hcovers, hlow⟩ := covers_of_tree hrouter hpatient haccess
    hlater (fun a hnear => (hwalks a hnear).1) habove
  obtain ⟨laterTree, hlaterTree, hrounds, hmade⟩ :=
    made_of_tree hrouter (RouterParameters.isNumber_of_validate hvalid) later haccess
  have hexists : ∀ stop label, laterTree.arrival? stop = some label →
      ∃ a legs, Journey router.timetable access later a legs stop label.time ∧
        legs.length = label.legs ∧ label.legs ≤ router.parameters.maxRounds := by
    intro stop label hlabel
    obtain ⟨hknown, hreached⟩ := Option.filter_eq_some_iff.mp hlabel
    obtain ⟨a, legs, hjourney, htotals, hlegs, -⟩ := hmade stop label hknown hreached
    exact ⟨a, legs, hjourney, htotals.legCount.symm, Nat.le_trans hlegs hrounds⟩
  have hreach : ∀ stop label a legs, laterTree.arrival? stop = some label →
      Journey router.timetable access later a legs stop label.time → legs.length ≤ label.legs →
        (∀ leg ∈ legs, leg.WalksDirectly router.timetable access departure) →
          ∃ earlier, earlierTree.arrival? stop = some earlier ∧ earlier.time ≤ label.time := by
    intro stop label a legs hlabel hjourney hlength hdirect
    obtain ⟨_, _, -, -, hrides⟩ := hexists stop label hlabel
    obtain ⟨earlier, hknown, hle⟩ :=
      hcovers a legs stop label.time hjourney hdirect (Nat.le_trans hlength hrides)
    have hfinite : Scalar.isFinite label.time = true := (Option.filter_eq_some_iff.mp hlabel).2
    have hreached : earlier.isReached = true := LawfulScalar.isFinite_iff.mpr
      ⟨hlow stop earlier hknown,
        Scalar.lt_of_le_of_lt hle (Scalar.lt_infinity_of_isFinite hfinite)⟩
    exact ⟨earlier, Option.filter_eq_some_iff.mpr ⟨hknown, hreached⟩, hle⟩
  refine ⟨earlierTree, laterTree, hearlier, hlaterTree, fun hall stop label hlabel => ?_,
    fun stop label hlabel => ⟨?_, fun a legs => hreach stop label a legs hlabel⟩⟩
  · obtain ⟨a, legs, hjourney, hlegs, -⟩ := hexists stop label hlabel
    exact hreach stop label a legs hlabel hjourney hlegs.le (hjourney.walksDirectly hall)
  · obtain ⟨a, legs, hjourney, hlegs, -⟩ := hexists stop label hlabel
    exact ⟨a, legs, hjourney, hlegs⟩

end TransitRouter

/-! ## A bus and a walk -/

/-- A bus to the second stop, and a walk from there to the third one. -/
def busAndWalk : Except (TransitError Float) (TimetableDraft Float) := do
  let draft := (TimetableDraft.empty.addStop ⟨0, 0⟩).2
  let draft := (draft.addStop ⟨1000, 0⟩).2
  let draft := (draft.addStop ⟨1010, 0⟩).2
  let (_, draft) ← draft.addRoute "A" .bus [⟨⟨0⟩, 0, 0, none⟩, ⟨⟨1⟩, 70, 70, none⟩] [50]
  draft.addTransfer ⟨1⟩ ⟨2⟩ 10

theorem drafted_busAndWalk : Ok busAndWalk TimetableDraft.Drafted := by
  have hstops := TimetableDraft.Drafted.empty.addStop (α := Float) ⟨0, 0⟩
    |>.addStop ⟨1000, 0⟩ |>.addStop ⟨1010, 0⟩
  refine Ok.bind (Q := fun next => next.2.Drafted) (fun _ h => hstops.addRoute h) fun bus hbus => ?_
  exact fun _ h => hbus.addTransfer h

theorem eq_of_transfersFrom {timetable : Timetable Float}
    (htransfers : timetable.transfers = #[#[], #[⟨⟨2⟩, 10⟩], #[]]) {source : StopId}
    {transfers : List (Transfer Float)} (h : timetable.transfersFrom source = .ok transfers)
    {transfer : Transfer Float} (hmem : transfer ∈ transfers) :
    source = ⟨1⟩ ∧ transfer = ⟨⟨2⟩, 10⟩ := by
  unfold Timetable.transfersFrom at h
  rw [htransfers] at h
  generalize hindex : source.index = i at h
  rcases i with _ | _ | _ | i
  · cases h
    cases hmem
  · cases h
    exact ⟨Id.index_injective hindex, List.mem_singleton.mp hmem⟩
  · cases h
    cases hmem
  · cases h

theorem direct_of_transfersFrom {timetable : Timetable Float}
    (htransfers : timetable.transfers = #[#[], #[⟨⟨2⟩, 10⟩], #[]]) {source : StopId}
    {transfers : List (Transfer Float)} (h : timetable.transfersFrom source = .ok transfers)
    {transfer : Transfer Float} (hmem : transfer ∈ transfers) :
    Direct timetable [⟨⟨0⟩, 0⟩] 0 source transfer := by
  obtain ⟨rfl, rfl⟩ := eq_of_transfersFrom htransfers h hmem
  refine ⟨rfl, fun a hnear hstop => ?_, fun origin _ first hfirst horigin htarget => ?_⟩
  · cases List.mem_singleton.mp hnear
    exact absurd hstop (by decide)
  · obtain ⟨-, rfl⟩ := eq_of_transfersFrom htransfers horigin hfirst
    exact absurd htarget (by decide)

/-- The walk is direct when the second stop is not reached on foot. -/
theorem tree_of_earlier_busAndWalk : ∃ draft timetable router earlierTree laterTree,
    busAndWalk = .ok draft ∧ draft.Drafted ∧ draft.build = .ok timetable ∧
      timetable.stopCount < 2 ^ 32 - 1 ∧ timetable.routeCount < 2 ^ 32 - 1 ∧
      TransitRouter.new timetable patient (fun _ => false) = .ok router ∧
      patient.maxTransferWait = Scalar.infinity ∧
      (∀ a ∈ [(⟨⟨0⟩, 0⟩ : NearStop Float)], timetable.contains a.stop = true) ∧
      (∀ a ∈ [(⟨⟨0⟩, 0⟩ : NearStop Float)], Scalar.isFinite a.walkTime = true ∧ 0 ≤ a.walkTime) ∧
      -Scalar.infinity < (0 : Float) ∧ (0 : Float) ≤ 50 ∧
      router.tree [⟨⟨0⟩, 0⟩] 0 = .ok earlierTree ∧ router.tree [⟨⟨0⟩, 0⟩] 50 = .ok laterTree ∧
      ((∀ source transfers, timetable.transfersFrom source = .ok transfers →
          ∀ transfer ∈ transfers, Direct timetable [⟨⟨0⟩, 0⟩] 0 source transfer) →
        ∀ stop label, laterTree.arrival? stop = some label →
          ∃ earlier, earlierTree.arrival? stop = some earlier ∧ earlier.time ≤ label.time) ∧
      (∀ source transfers, timetable.transfersFrom source = .ok transfers →
          ∀ transfer ∈ transfers, Direct timetable [⟨⟨0⟩, 0⟩] 0 source transfer) := by
  have hdraft := drafted_busAndWalk _ rfl
  have hwalks : ∀ a ∈ [(⟨⟨0⟩, 0⟩ : NearStop Float)],
      Scalar.isFinite a.walkTime = true ∧ 0 ≤ a.walkTime := by
    intro a ha
    cases List.mem_singleton.mp ha
    decide +kernel
  obtain ⟨earlierTree, laterTree, hearlier, hlater, hall, -⟩ := TransitRouter.tree_of_earlier
    patient (fun _ => false) [⟨⟨0⟩, 0⟩] 0 50 hdraft rfl (by decide) (by decide) rfl rfl (by decide)
    hwalks rfl (by decide +kernel)
  refine ⟨_, _, _, earlierTree, laterTree, rfl, hdraft, rfl, by decide, by decide, rfl, rfl,
    by decide, hwalks, rfl, by decide +kernel, hearlier, hlater, hall, ?_⟩
  exact fun _ _ htransfers _ htransfer => direct_of_transfersFrom rfl htransfers htransfer

/-- The second stop is reached on foot before the bus comes there, and so nobody walks on from it.
Who leaves later finds the bus to be faster, and walks on. -/
theorem not_tree_of_earlier : ∃ draft timetable router,
    busAndWalk = .ok draft ∧ draft.Drafted ∧ draft.build = .ok timetable ∧
      timetable.stopCount < 2 ^ 32 - 1 ∧ timetable.routeCount < 2 ^ 32 - 1 ∧
      TransitRouter.new timetable patient (fun _ => false) = .ok router ∧
      patient.maxTransferWait = Scalar.infinity ∧
      (∀ a ∈ [(⟨⟨0⟩, 0⟩ : NearStop Float), ⟨⟨1⟩, 100⟩], timetable.contains a.stop = true ∧
        Scalar.isFinite a.walkTime = true ∧ 0 ≤ a.walkTime) ∧
      -Scalar.infinity < (0 : Float) ∧ (0 : Float) ≤ 50 ∧
      (∃ tree, router.tree [⟨⟨0⟩, 0⟩, ⟨⟨1⟩, 100⟩] 0 = .ok tree ∧
        (tree.arrival? ⟨2⟩).isSome = false) ∧
      ∃ tree, router.tree [⟨⟨0⟩, 0⟩, ⟨⟨1⟩, 100⟩] 50 = .ok tree ∧
        (tree.arrival? ⟨2⟩).isSome = true := by
  refine ⟨_, _, _, rfl, drafted_busAndWalk _ rfl, rfl, by decide, by decide, rfl, rfl,
    ?_, rfl, by decide +kernel, exists_of_any (by decide +kernel),
    exists_of_any (by decide +kernel)⟩
  intro a ha
  rcases List.mem_pair.mp ha with rfl | rfl
  · decide +kernel
  · decide +kernel

end ZoneSkims
