import ZoneSkims.Proofs.Transit.Scan

/-!
# Rounds

A round queues the routes at the stops that the round before has improved, scans them, and walks
from the stops that were improved on the way. What holds after every round is shown of one round
and carried through all of them.

* `TransitRouter.Advances`: what a round makes of the arrivals before it.
* `TransitRouter.rounds_spec`, `TransitRouter.tree_spec`: an invariant of rounds holds of the tree.
-/

namespace ZoneSkims

variable {α : Type}

/-! ## The queue -/

/-- The route is queued from the position on, or from an earlier one. -/
def Queued (queue : List (RouteId × Nat)) (id : RouteId) (position : Nat) : Prop :=
  ∃ start, start ≤ position ∧ (id, start) ∈ queue

section Queue

variable {queue served : List (RouteId × Nat)} {id other : RouteId} {position start : Nat}

theorem mem_of_mem_enqueue {entry : RouteId × Nat} (h : entry ∈ enqueue queue id position) :
    entry ∈ queue ∨ entry = (id, position) := by
  induction queue with
  | nil => exact .inr (List.mem_singleton.mp h)
  | cons first rest ih =>
    obtain ⟨other, start⟩ := first
    unfold enqueue at h
    split at h
    · rcases List.mem_cons.mp h with h | h
      · exact .inr h
      · exact .inl h
    · split at h
      · next heq =>
        subst heq
        rcases List.mem_cons.mp h with h | h
        · rcases Nat.le_total start position with hle | hle
          · rw [Nat.min_eq_left hle] at h
            exact .inl (List.mem_cons.mpr (.inl h))
          · rw [Nat.min_eq_right hle] at h
            exact .inr h
        · exact .inl (List.mem_cons_of_mem _ h)
      · rcases List.mem_cons.mp h with h | h
        · exact .inl (List.mem_cons.mpr (.inl h))
        · exact (ih h).imp_left (List.mem_cons_of_mem _)

theorem queued_enqueue_self : Queued (enqueue queue id position) id position := by
  induction queue with
  | nil => exact ⟨position, Nat.le_refl _, by simp [enqueue]⟩
  | cons first rest ih =>
    obtain ⟨other, start⟩ := first
    unfold enqueue
    split
    · exact ⟨position, Nat.le_refl _, List.mem_cons_self⟩
    · split
      · next heq =>
        subst heq
        exact ⟨min start position, Nat.min_le_right _ _, List.mem_cons_self⟩
      · obtain ⟨start', hle, hmem⟩ := ih
        exact ⟨start', hle, List.mem_cons_of_mem _ hmem⟩

theorem Queued.enqueue (h : Queued queue other start) :
    Queued (enqueue queue id position) other start := by
  obtain ⟨first, hle, hmem⟩ := h
  induction queue with
  | nil => cases hmem
  | cons head rest ih =>
    obtain ⟨id', start'⟩ := head
    unfold ZoneSkims.enqueue
    split
    · exact ⟨first, hle, List.mem_cons_of_mem _ hmem⟩
    · split
      · next heq =>
        subst heq
        rcases List.mem_cons.mp hmem with h | h
        · cases h
          exact ⟨min first position, by omega, List.mem_cons_self⟩
        · exact ⟨first, hle, List.mem_cons_of_mem _ h⟩
      · rcases List.mem_cons.mp hmem with h | h
        · exact ⟨first, hle, List.mem_cons.mpr (.inl h)⟩
        · obtain ⟨start'', hle', hmem'⟩ := ih h
          exact ⟨start'', hle', List.mem_cons_of_mem _ hmem'⟩

/-- All positions at which a stop is served are queued with what was queued before. -/
theorem queued_foldl (h : Queued queue id position ∨ (id, position) ∈ served) :
    Queued (served.foldl (fun queue (id, position) => enqueue queue id position) queue)
      id position := by
  induction served generalizing queue with
  | nil => exact h.resolve_right List.not_mem_nil
  | cons first rest ih =>
    rw [List.foldl_cons]
    refine ih ?_
    rcases h with h | h
    · exact .inl h.enqueue
    · rcases List.mem_cons.mp h with rfl | h
      · exact .inl queued_enqueue_self
      · exact .inr h

theorem mem_of_mem_foldl {entry : RouteId × Nat}
    (h : entry ∈ served.foldl (fun queue (id, position) => enqueue queue id position) queue) :
    entry ∈ queue ∨ entry ∈ served := by
  induction served generalizing queue with
  | nil => exact .inl h
  | cons first rest ih =>
    rcases ih h with h | h
    · rcases mem_of_mem_enqueue h with h | rfl
      · exact .inl h
      · exact .inr List.mem_cons_self
    · exact .inr (List.mem_cons_of_mem _ h)

end Queue

namespace TransitRouter

variable [Scalar α] {router : TransitRouter α}

/-- Exactly routes of the timetable are queued, and every one that calls at one of the stops is, no
later than from there on. -/
theorem routeQueue_spec (htimetable : router.timetable.Sound) {stops : List StopId}
    (hstops : ∀ stop ∈ stops, router.timetable.contains stop = true) :
    Returns (router.routeQueue stops) fun queue =>
      (∀ entry ∈ queue, ∃ route, router.timetable.route entry.1 = .ok route) ∧
      ∀ (id : RouteId) (route : Route α) (position : Nat) (call : Call α),
        router.timetable.route id = .ok route → route.calls[position]? = some call →
          call.stop ∈ stops → Queued queue id position := by
  unfold routeQueue
  refine Returns.foldlM (fun done queue =>
    (∀ entry ∈ queue, ∃ route, router.timetable.route entry.1 = .ok route) ∧
      ∀ (id : RouteId) (route : Route α) (position : Nat) (call : Call α),
        router.timetable.route id = .ok route → route.calls[position]? = some call →
          call.stop ∈ done → Queued queue id position)
    ⟨fun _ h => absurd h List.not_mem_nil, fun _ _ _ _ _ _ h => absurd h List.not_mem_nil⟩ ?_
  rintro done stop rest queue hstops' ⟨hroutes, hqueued⟩
  have hstop : router.timetable.contains stop = true := hstops stop (by simp [hstops'])
  refine Returns.bind (htimetable.servedAt hstop) fun served hserved => Returns.pure ⟨?_, ?_⟩
  · intro entry hentry
    rcases mem_of_mem_foldl hentry with hmem | hmem
    · exact hroutes entry hmem
    · obtain ⟨route, call, hroute, -⟩ := (hserved entry.1 entry.2).mp hmem
      exact ⟨route, hroute⟩
  · intro id route position call hroute hcall hmem
    refine queued_foldl ?_
    rcases List.mem_append.mp hmem with hmem | hmem
    · exact .inl (hqueued id route position call hroute hcall hmem)
    · exact .inr ((hserved id position).mpr
        ⟨route, call, hroute, hcall, List.mem_singleton.mp hmem⟩)

/-! ## Walks -/

/-- The arrival at a stop after a walk from a stop that the rides of a round have improved. -/
def Walked (timetable : Timetable α) (rides : RoundState α) (stop : StopId) (label : Arrival α) :
    Prop :=
  ∃ source here transfers transfer, source ∈ rides.improved ∧
    rides.best[source.index]? = some here ∧ timetable.transfersFrom source = .ok transfers ∧
      transfer ∈ transfers ∧ transfer.target = stop ∧
        label = { here with time := here.time + transfer.walkTime }

variable [LawfulScalar α]

/-- Walking is an improvement, or the stop is reached as early already. -/
theorem walk_spec {state : RoundState α} {label : Arrival α} {transfer : Transfer α}
    {P : StopId → Arrival α → Prop} (hdefined : Defined state.best)
    (htarget : transfer.target.index < state.best.size)
    (hkind : P transfer.target { label with time := label.time + transfer.walkTime }) :
    Returns (walk label state transfer) fun next => RoundState.Improvements P state next ∧
      (Scalar.IsNumber (label.time + transfer.walkTime) →
        Within next.best transfer.target (label.time + transfer.walkTime)) := by
  have hknown := Array.getElem?_eq_getElem htarget
  simp only [walk, fetch_eq_ok.mpr hknown, bind, Except.bind]
  split
  · next hlt =>
    exact Returns.pure ⟨.single (.improve hknown hlt hkind), fun hnumber =>
      ⟨_, RoundState.getElem?_improve_self hknown, Scalar.le_refl hnumber⟩⟩
  · next hle =>
    exact Returns.pure ⟨.refl, fun hnumber =>
      ⟨_, hknown, Scalar.le_of_not_lt hnumber (hdefined _ _ hknown) hle⟩⟩

theorem walks_spec {state : RoundState α} {label : Arrival α} {transfers : List (Transfer α)}
    {P : StopId → Arrival α → Prop} (hdefined : Defined state.best)
    (htargets : ∀ transfer ∈ transfers, transfer.target.index < state.best.size)
    (hkinds : ∀ transfer ∈ transfers,
      P transfer.target { label with time := label.time + transfer.walkTime }) :
    Returns (transfers.foldlM (walk label) state) fun next =>
      RoundState.Improvements P state next ∧
        ∀ transfer ∈ transfers, Scalar.IsNumber (label.time + transfer.walkTime) →
          Within next.best transfer.target (label.time + transfer.walkTime) := by
  refine Returns.foldlM (fun (done : List (Transfer α)) next =>
    RoundState.Improvements P state next ∧
      ∀ transfer ∈ done, Scalar.IsNumber (label.time + transfer.walkTime) →
        Within next.best transfer.target (label.time + transfer.walkTime))
    ⟨.refl, fun _ h => absurd h List.not_mem_nil⟩ ?_
  rintro done transfer rest before htransfers ⟨hbefore, hdone⟩
  have hmem : transfer ∈ transfers := by simp [htransfers]
  refine (walk_spec (hbefore.defined hdefined) (hbefore.size ▸ htargets transfer hmem)
    (hkinds transfer hmem)).mono ?_
  rintro next ⟨hnext, hwithin⟩
  refine ⟨hbefore.trans hnext, fun other hother hnumber => ?_⟩
  rcases List.mem_append.mp hother with hother | hother
  · exact hnext.within (hdone other hother hnumber)
  · cases List.mem_singleton.mp hother
    exact hwithin hnumber

/-- No walk from a stop is missed that the rides of a round have improved. -/
def WalksFrom (timetable : Timetable α) (rides next : RoundState α) (source : StopId) : Prop :=
  ∀ here transfers transfer, rides.best[source.index]? = some here →
    timetable.transfersFrom source = .ok transfers → transfer ∈ transfers →
      Scalar.IsNumber (here.time + transfer.walkTime) →
        Within next.best transfer.target (here.time + transfer.walkTime)

theorem WalksFrom.mono {rides state next : RoundState α} {source : StopId}
    {P : StopId → Arrival α → Prop} (h : WalksFrom router.timetable rides state source)
    (hnext : RoundState.Improvements P state next) :
    WalksFrom router.timetable rides next source :=
  fun here transfers transfer hhere htransfers hmem hnumber =>
    hnext.within (h here transfers transfer hhere htransfers hmem hnumber)

theorem walkAll_spec (htimetable : router.timetable.Sound) {rides : RoundState α}
    (hsize : rides.best.size = router.timetable.stopCount) (hdefined : Defined rides.best)
    (hstops : ∀ stop ∈ rides.improved, router.timetable.contains stop = true) :
    Returns (router.walkAll rides) fun next =>
      RoundState.Improvements (Walked router.timetable rides) rides next ∧
        ∀ source ∈ rides.improved, WalksFrom router.timetable rides next source := by
  let Walks (done : List (StopId × Arrival α)) (state : RoundState α) : Prop :=
    RoundState.Improvements (Walked router.timetable rides) rides state ∧
      ∀ source ∈ done, WalksFrom router.timetable rides state source.1
  unfold walkAll
  have hsources : ∀ stop ∈ rides.improved.mergeSort (fun a b => a.raw ≤ b.raw),
      Returns (do return (stop, ← fetch rides.best stop.index) : Checked (StopId × Arrival α))
        fun source => source.1 = stop ∧ rides.best[stop.index]? = some source.2 := by
    intro stop hstop
    have hlt := Timetable.contains_iff.mp (hstops stop (List.mem_mergeSort.mp hstop))
    exact Returns.bind (Returns.fetch (hsize ▸ hlt)) fun label hlabel => Returns.pure ⟨rfl, hlabel⟩
  refine Returns.bind (Returns.mapM hsources) fun sources ⟨hmem, hall⟩ => ?_
  refine (Returns.foldlM Walks ⟨.refl, fun _ h => absurd h List.not_mem_nil⟩ ?_).mono
    fun next ⟨hnext, hdone⟩ => ⟨hnext, fun stop hstop => ?_⟩
  · rintro done source rest state hsources ⟨hstate, hdone⟩
    obtain ⟨stop, hstop, hname, hlabel⟩ := hmem source (by simp [hsources])
    have hstop := List.mem_mergeSort.mp hstop
    obtain ⟨transfers, htransfers, hcontained⟩ := htimetable.transfersFrom (hstops stop hstop)
    simp only [hname, htransfers, bind, Except.bind]
    refine (walks_spec (P := Walked router.timetable rides) (hstate.defined hdefined)
      (fun transfer htransfer => ?_) (fun transfer htransfer => ?_)).mono
      fun next ⟨hnext, hwithin⟩ => ⟨hstate.trans hnext, fun other hother => ?_⟩
    · rw [hstate.size, hsize]
      exact Timetable.contains_iff.mp (hcontained transfer htransfer).1
    · exact ⟨stop, source.2, transfers, transfer, hstop, hlabel, htransfers, htransfer, rfl, rfl⟩
    · rcases List.mem_append.mp hother with hother | hother
      · exact (hdone other hother).mono hnext
      · cases List.mem_singleton.mp hother
        intro here transfers' transfer hhere htransfers' htransfer
        rw [hname] at hhere htransfers'
        cases hlabel.symm.trans hhere
        cases htransfers.symm.trans htransfers'
        exact hwithin transfer htransfer
  · obtain ⟨source, hsource, rfl, -⟩ := hall stop (List.mem_mergeSort.mpr hstop)
    exact hdone source hsource

/-! ## One round -/

/-- The parts of a router fit together. -/
structure Sound (router : TransitRouter α) (isTrain : Route α → Bool) : Prop where
  timetable : router.timetable.Sound
  train : ∀ {id : RouteId} {route : Route α}, router.timetable.route id = .ok route →
    fetch router.isTrain id.index = .ok (isTrain route)

/-- The arrivals and the improved stops belong to the timetable. -/
structure Fits (router : TransitRouter α) (marked : List StopId) (best : Array (Arrival α)) :
    Prop where
  size : best.size = router.timetable.stopCount
  defined : Defined best
  contained : ∀ stop ∈ marked, router.timetable.contains stop = true

/-- A round goes on from the arrivals `before` it. It improves them by rides, so that no offer from
a marked stop is missed, and then by walks, none of which is missed either. -/
structure Advances (router : TransitRouter α) (marked : List StopId) (before : Array (Arrival α))
    (rides next : RoundState α) : Prop where
  rode : RoundState.Improvements (router.Ridden before) { best := before, improved := [] } rides
  offers : ∀ here leg source target, router.Offers before here leg source target →
    source ∈ marked → Within rides.best target leg.arrival
  walked : RoundState.Improvements (Walked router.timetable rides) rides next
  walks : ∀ source ∈ rides.improved, WalksFrom router.timetable rides next source

namespace Advances

variable {marked : List StopId} {before : Array (Arrival α)}
  {rides next : RoundState α}

theorem since_rides (h : router.Advances marked before rides next) :
    RoundState.Since (router.Ridden before) before rides :=
  (RoundState.Since.start before).improvements h.rode

theorem since (h : router.Advances marked before rides next) :
    RoundState.Since (fun stop label => router.Ridden before stop label ∨
      Walked router.timetable rides stop label) before next :=
  (h.since_rides.mono fun _ _ => Or.inl).improvements (h.walked.mono fun _ _ => Or.inr)

/-- A stop is not reached later than before the round. -/
theorem within (h : router.Advances marked before rides next) {stop : StopId} {time : α}
    (hwithin : Within before stop time) : Within next.best stop time :=
  h.walked.within (h.rode.within hwithin)

theorem within_of_offers (h : router.Advances marked before rides next) {here : Arrival α}
    {leg : Leg α} {source target : StopId} (hoffer : router.Offers before here leg source target)
    (hmarked : source ∈ marked) : Within next.best target leg.arrival :=
  h.walked.within (h.offers here leg source target hoffer hmarked)

theorem fits (h : router.Advances marked before rides next) (hfits : router.Fits marked before) :
    router.Fits next.improved next.best := by
  refine ⟨h.since.size.trans hfits.size, h.walked.defined (h.rode.defined hfits.defined), ?_⟩
  intro stop hstop
  exact Timetable.contains_iff.mpr (hfits.size ▸ h.since.lt_size_of_mem hstop)

end Advances

/-- Every round advances. -/
theorem round_spec {isTrain : Route α → Bool} (hrouter : router.Sound isTrain)
    {marked : List StopId} {before : Array (Arrival α)} (hfits : router.Fits marked before) :
    Returns (router.round marked before) fun next =>
      ∃ rides, router.Advances marked before rides next := by
  have htimetable := hrouter.timetable
  unfold round
  refine Returns.bind (routeQueue_spec htimetable hfits.contained) fun queue hqueue => ?_
  obtain ⟨hroutes, hqueued⟩ := hqueue
  let Rides (state : RoundState α) : Prop :=
    RoundState.Improvements (router.Ridden before) { best := before, improved := [] } state
  have hscans : Returns (queue.foldlM (router.rideRoute before) { best := before, improved := [] })
      fun rides => Rides rides ∧
        ∀ here leg source target, router.Offers before here leg source target →
          Queued queue leg.id leg.boarding → Within rides.best target leg.arrival := by
    refine Returns.foldlM (fun done state => Rides state ∧
      ∀ here leg source target, router.Offers before here leg source target →
        Queued done leg.id leg.boarding → Within state.best target leg.arrival)
      ⟨.refl, fun _ _ _ _ _ ⟨_, _, h⟩ => absurd h List.not_mem_nil⟩ ?_
    rintro done ⟨id, position⟩ rest state hqueue ⟨hstate, hoffers⟩
    obtain ⟨route, hroute⟩ := hroutes (id, position) (by simp [hqueue])
    refine (rideRoute_spec htimetable hroute (hrouter.train hroute) hfits.size
      (hstate.size.trans hfits.size) (hstate.defined hfits.defined)).mono ?_
    rintro next ⟨hnext, hscanned⟩
    refine ⟨hstate.trans hnext, fun here leg source target hoffer ⟨start, hle, hmem⟩ => ?_⟩
    rcases List.mem_append.mp hmem with hmem | hmem
    · exact hnext.within (hoffers here leg source target hoffer ⟨start, hle, hmem⟩)
    · cases List.mem_singleton.mp hmem
      exact hscanned here leg source target hoffer rfl hle
  refine Returns.bind hscans fun rides hrides => ?_
  obtain ⟨hrides, hoffers⟩ := hrides
  have hsince := (RoundState.Since.start before).improvements hrides
  have hsize := hsince.size.trans hfits.size
  have hstops : ∀ stop ∈ rides.improved, router.timetable.contains stop = true := fun stop hstop =>
    Timetable.contains_iff.mpr (hfits.size ▸ hsince.lt_size_of_mem hstop)
  refine (walkAll_spec htimetable hsize (hrides.defined hfits.defined) hstops).mono ?_
  rintro next ⟨hnext, hwalks⟩
  refine ⟨rides, hrides, ?_, hnext, hwalks⟩
  intro here leg source target hoffer hmarked
  obtain ⟨call, hcall, hsource⟩ := hoffer.runs.boards
  exact hoffers here leg source target hoffer
    (hqueued leg.id leg.route leg.boarding call hoffer.runs.route hcall (hsource ▸ hmarked))

/-! ## All rounds -/

/-- What every round keeps holds after the last one: there is nothing left to go on from, or there
may be no more rounds. -/
theorem rounds_spec {isTrain : Route α → Bool} (hrouter : router.Sound isTrain)
    {I : Nat → List StopId → Array (Arrival α) → Prop}
    (hkeep : ∀ done marked before rides next, I done marked before → router.Fits marked before →
      router.Advances marked before rides next → I (done + 1) next.improved next.best)
    (left : Nat) :
    ∀ {done : Nat} {marked : List StopId} {best : Array (Arrival α)},
      I done marked best → router.Fits marked best →
      Returns (router.rounds left done marked best) fun last =>
        ∃ marked', I last.2 marked' last.1 ∧ router.Fits marked' last.1 ∧
          last.2 ≤ done + left ∧ (marked' = [] ∨ last.2 = done + left) := by
  induction left with
  | zero =>
    intro done marked best hI hfits
    exact Returns.pure ⟨marked, hI, hfits, Nat.le_refl _, .inr rfl⟩
  | succ left ih =>
    intro done marked best hI hfits
    unfold rounds
    split
    · next hempty =>
      exact Returns.pure ⟨marked, hI, hfits, by omega, .inl (List.isEmpty_iff.mp hempty)⟩
    · refine Returns.bind (round_spec hrouter hfits) fun next hnext => ?_
      obtain ⟨rides, hadvances⟩ := hnext
      refine (ih (hkeep _ _ _ _ _ hI hfits hadvances) (hadvances.fits hfits)).mono ?_
      rintro last ⟨marked', hI', hfits', hle, hend⟩
      exact ⟨marked', hI', hfits', by omega, hend.imp_right fun h => by omega⟩

/-! ## The start -/

/-- The arrival at a stop after the walk from the place of departure. -/
def Entered (access : List (NearStop α)) (departure : α) (stop : StopId) (label : Arrival α) :
    Prop :=
  ∃ a ∈ access, a.stop = stop ∧
    label = { Arrival.unreached with time := departure + a.walkTime, accessTime := a.walkTime }

/-- The arrivals before the walks from the place of departure. -/
def nowhere (router : TransitRouter α) : Array (Arrival α) :=
  Array.replicate router.timetable.stopCount Arrival.unreached

omit [LawfulScalar α] in
theorem eq_unreached_of_nowhere {stop : StopId} {label : Arrival α}
    (h : router.nowhere[stop.index]? = some label) : label = Arrival.unreached := by
  obtain ⟨-, rfl⟩ := Array.getElem?_eq_some_iff.mp h
  simp [nowhere]

theorem enter_spec {access : List (NearStop α)} {departure : α}
    (haccess : ∀ a ∈ access, router.timetable.contains a.stop = true) :
    Returns (access.foldlM (enter departure) { best := router.nowhere, improved := [] })
      fun state =>
        RoundState.Since (Entered access departure) router.nowhere state ∧
        router.Fits state.improved state.best ∧
        ∀ a ∈ access, Scalar.IsNumber (departure + a.walkTime) →
          Within state.best a.stop (departure + a.walkTime) := by
  have hdefined : Defined router.nowhere := by
    intro stop label hlabel
    cases eq_unreached_of_nowhere hlabel
    exact Scalar.isNumber_infinity
  let Enters (state : RoundState α) : Prop := RoundState.Improvements (Entered access departure)
    { best := router.nowhere, improved := [] } state
  have hall : Returns (access.foldlM (enter departure) { best := router.nowhere, improved := [] })
      fun state => Enters state ∧ ∀ a ∈ access, Scalar.IsNumber (departure + a.walkTime) →
        Within state.best a.stop (departure + a.walkTime) := by
    refine Returns.foldlM (fun (done : List (NearStop α)) state => Enters state ∧
      ∀ a ∈ done, Scalar.IsNumber (departure + a.walkTime) →
        Within state.best a.stop (departure + a.walkTime))
      ⟨.refl, fun _ h => absurd h List.not_mem_nil⟩ ?_
    rintro done a rest state hdone ⟨hstate, hwithin⟩
    have hmem : a ∈ access := by simp [hdone]
    have hlt : a.stop.index < state.best.size := by
      rw [hstate.size, nowhere, Array.size_replicate]
      exact Timetable.contains_iff.mp (haccess a hmem)
    have hknown := Array.getElem?_eq_getElem hlt
    simp only [enter, fetch_eq_ok.mpr hknown, bind, Except.bind]
    split
    · next hearly =>
      have hnext : RoundState.Improvements (Entered access departure) state _ :=
        .single (.improve hknown hearly ⟨a, hmem, rfl, rfl⟩)
      refine Returns.pure ⟨hstate.trans hnext, fun a' ha' hnumber => ?_⟩
      rcases List.mem_append.mp ha' with ha' | ha'
      · exact hnext.within (hwithin a' ha' hnumber)
      · cases List.mem_singleton.mp ha'
        exact ⟨_, RoundState.getElem?_improve_self hknown, Scalar.le_refl hnumber⟩
    · next hlate =>
      refine Returns.pure ⟨hstate, fun a' ha' hnumber => ?_⟩
      rcases List.mem_append.mp ha' with ha' | ha'
      · exact hwithin a' ha' hnumber
      · cases List.mem_singleton.mp ha'
        exact ⟨_, hknown,
          Scalar.le_of_not_lt hnumber (hstate.defined hdefined _ _ hknown) hlate⟩
  refine hall.mono fun state ⟨hstate, hwithin⟩ => ?_
  have hsince := (RoundState.Since.start router.nowhere).improvements hstate
  refine ⟨hsince, ⟨?_, hstate.defined hdefined, fun stop hstop => ?_⟩, hwithin⟩
  · rw [hsince.size, nowhere, Array.size_replicate]
  · have hlt := hsince.lt_size_of_mem hstop
    rw [nowhere, Array.size_replicate] at hlt
    exact Timetable.contains_iff.mpr hlt

/-- An invariant of the rounds holds of the tree: after the round in which nothing was improved, or
after as many as there may be. -/
theorem tree_spec {isTrain : Route α → Bool} (hrouter : router.Sound isTrain)
    {access : List (NearStop α)} {departure : α}
    (haccess : ∀ a ∈ access, router.timetable.contains a.stop = true)
    {I : Nat → List StopId → Array (Arrival α) → Prop}
    (hstart : ∀ state, RoundState.Since (Entered access departure) router.nowhere state →
      (∀ a ∈ access, Scalar.IsNumber (departure + a.walkTime) →
        Within state.best a.stop (departure + a.walkTime)) → I 0 state.improved state.best)
    (hkeep : ∀ done marked before rides next, I done marked before → router.Fits marked before →
      router.Advances marked before rides next → I (done + 1) next.improved next.best) :
    Returns (router.tree access departure) fun tree =>
      ∃ marked, I tree.rounds marked tree.arrivals ∧ router.Fits marked tree.arrivals ∧
        tree.rounds ≤ router.parameters.maxRounds ∧
          (marked = [] ∨ tree.rounds = router.parameters.maxRounds) := by
  unfold tree
  refine Returns.bind (enter_spec haccess) fun state ⟨hsince, hfits, hwithin⟩ => ?_
  refine Returns.bind (rounds_spec hrouter hkeep _ (hstart state hsince hwithin) hfits) ?_
  rintro ⟨arrivals, rounds⟩ ⟨marked, hI, hfits', hle, hend⟩
  rw [Nat.zero_add] at hle hend
  exact Returns.pure ⟨marked, hI, hfits', hle, hend⟩

/-- Every search comes to an end. -/
theorem exists_tree {isTrain : Route α → Bool} (hrouter : router.Sound isTrain)
    {access : List (NearStop α)}
    (haccess : ∀ a ∈ access, router.timetable.contains a.stop = true) (departure : α) :
    ∃ tree, router.tree access departure = .ok tree := by
  obtain ⟨tree, htree, -⟩ : Returns (router.tree access departure) _ := tree_spec hrouter haccess
    (I := fun _ _ _ => True) (fun _ _ _ => trivial) fun _ _ _ _ _ _ _ _ => trivial
  exact ⟨tree, htree⟩

omit [LawfulScalar α] in
theorem eq_of_new {timetable : Timetable α} {parameters : RouterParameters α}
    {isTrain : Route α → Bool}
    (h : TransitRouter.new timetable parameters isTrain = .ok router) :
    parameters.validate = .ok () ∧
      router = { timetable, parameters, isTrain := timetable.routes.map isTrain } := by
  obtain ⟨_, hvalid, h⟩ := bind_eq_ok.mp h
  cases h
  exact ⟨hvalid, rfl⟩

omit [LawfulScalar α] in
theorem new_eq {timetable : Timetable α} {parameters : RouterParameters α}
    {isTrain : Route α → Bool} {trains : Array Bool}
    (hvalid : parameters.validate.toOption.isSome = true)
    (htrains : timetable.routes.map isTrain = trains) :
    TransitRouter.new timetable parameters isTrain =
      .ok { timetable, parameters, isTrain := trains } := by
  obtain ⟨_, hvalid⟩ := exists_of_isSome hvalid
  exact bind_eq_ok.mpr ⟨_, hvalid, htrains ▸ rfl⟩

omit [LawfulScalar α] in
/-- A router over a built timetable is sound, and its parameters are valid. -/
theorem sound_of_new {timetable : Timetable α} {parameters : RouterParameters α}
    {isTrain : Route α → Bool} (htimetable : timetable.Sound)
    (h : TransitRouter.new timetable parameters isTrain = .ok router) :
    router.Sound isTrain ∧ parameters.validate = .ok () ∧ router.timetable = timetable ∧
      router.parameters = parameters := by
  obtain ⟨hvalid, rfl⟩ := eq_of_new h
  refine ⟨⟨htimetable, fun {id route} hroute => ?_⟩, hvalid, rfl, rfl⟩
  rw [fetch_eq_ok, Array.getElem?_map, fetch_eq_ok.mp hroute, Option.map_some]

end TransitRouter

end ZoneSkims
