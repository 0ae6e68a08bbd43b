import Mathlib.Data.Multiset.FinsetOps
import ZoneSkims.Proofs.Scalar.Sorting
import ZoneSkims.Proofs.Transit.Range

/-!
# The order of the stops near a place

A search is given the stops near a place of departure as a list, and the order of the list must not
matter. The walks to the stops can be exchanged as long as no two lead to one stop; they leave the
same arrivals, and the same improved stops in another order. The next round loses that order,
because its queue is kept in the order of the routes, each from the least of its positions. The
departures of a window lose it when they are sorted, since the total order tells them apart.

* `enqueue_comm`, `TransitRouter.routeQueue_of_perm`: the queue does not depend on the order.
* `RoundState.unordered`: a state up to the order of its improved stops.
* `TransitRouter.tree_of_perm`, `TransitRouter.departures_of_perm`: neither do trees and departures.
* `TransitRouter.departures_ascend`: the departures of a window ascend.
* `TransitRouter.access_order_irrelevant`: the main result.
-/

namespace ZoneSkims

variable {α : Type}

/-! ## The queue -/

/-- Two routes may be queued in either order. -/
theorem enqueue_comm (queue : List (RouteId × Nat)) (id other : RouteId) (position start : Nat) :
    enqueue (enqueue queue id position) other start =
      enqueue (enqueue queue other start) id position := by
  induction queue with
  | nil => grind [enqueue, Id.lt_iff_index_lt, Id.index_injective]
  | cons first rest ih => grind [enqueue, Id.lt_iff_index_lt, Id.index_injective]

/-- A position outside an array is the only breach of reading it. -/
theorem fetch_cases (xs : Array α) (i : Nat) :
    fetch xs i = .error .outOfRange ∨ ∃ x, fetch xs i = .ok x := by
  unfold fetch
  cases xs[i]? with
  | none => exact .inl rfl
  | some x => exact .inr ⟨x, rfl⟩

theorem fetch_setIfInBounds_of_ne {xs : Array α} {i j : Nat} {x : α} (h : i ≠ j) :
    fetch (xs.setIfInBounds i x) j = fetch xs j := by
  rw [fetch, fetch, Array.getElem?_setIfInBounds_ne h]

theorem Timetable.servedAt_cases (timetable : Timetable α) (stop : StopId) :
    timetable.servedAt stop = .error .outOfRange ∨
      ∃ served, timetable.servedAt stop = .ok served := by
  unfold servedAt
  rcases fetch_cases timetable.serving stop.index with h | ⟨served, h⟩
  · exact .inl (by rw [h]; rfl)
  · exact .inr ⟨served.toList, by rw [h]; rfl⟩

namespace TransitRouter

variable [Scalar α] {router : TransitRouter α} {marked marked' : List StopId}

omit [Scalar α] in
theorem routeQueue_of_perm (h : marked.Perm marked') :
    router.routeQueue marked = router.routeQueue marked' := by
  refine foldlM_eq_of_perm h (fun stop _ other _ queue => ?_) []
  rcases router.timetable.servedAt_cases stop with hstop | ⟨served, hstop⟩ <;>
    rcases router.timetable.servedAt_cases other with hother | ⟨served', hother⟩ <;>
    rw [hstop, hother]
  case inl.inr => rfl
  case inr.inl => rfl
  case inr.inr =>
    have hswap : (served ++ served').Perm (served' ++ served) := List.perm_append_comm
    have hcomm := hswap.foldl_eq'
      (f := fun queue (entry : RouteId × Nat) => enqueue queue entry.1 entry.2)
      (fun _ _ _ _ queue => enqueue_comm queue ..) queue
    rw [List.foldl_append, List.foldl_append] at hcomm
    exact congrArg Except.ok hcomm

theorem rounds_of_perm (h : marked.Perm marked') (left done : Nat) (best : Array (Arrival α)) :
    router.rounds left done marked best = router.rounds left done marked' best := by
  cases left with
  | zero => rfl
  | succ left => rw [rounds, rounds, round, round, routeQueue_of_perm h, h.isEmpty_eq]

end TransitRouter

/-! ## The walks to the stops -/

/-- The arrivals, and the improved stops without their order. -/
def RoundState.unordered (state : RoundState α) : Array (Arrival α) × Multiset StopId :=
  (state.best, state.improved)

theorem RoundState.unordered_improve (state : RoundState α) (stop : StopId) (label : Arrival α) :
    (state.improve stop label).unordered =
      (state.best.setIfInBounds stop.index label, Multiset.ndinsert stop state.improved) := by
  rw [Multiset.coe_ndinsert, List.insert_eq_ite]
  simp only [unordered, improve]

theorem ndinsert_comm (a b : StopId) (stops : Multiset StopId) :
    (stops.ndinsert a).ndinsert b = (stops.ndinsert b).ndinsert a := by
  induction stops using Quotient.inductionOn with
  | h stops =>
    simp only [Multiset.quot_mk_to_coe, Multiset.coe_ndinsert]
    exact Multiset.coe_eq_coe.mpr (List.perm_insert_swap ..)

namespace TransitRouter

variable [Scalar α] {router : TransitRouter α} {access other : List (NearStop α)} {departure : α}

/-- The arrival at a stop that was walked to. -/
def entry (departure : α) (a : NearStop α) : Arrival α :=
  { Arrival.unreached with time := departure + a.walkTime, accessTime := a.walkTime }

/-- A stop where `known` is the best arrival so far is walked to. -/
def reachUnordered (departure : α) (a : NearStop α) (known : Arrival α)
    (state : Array (Arrival α) × Multiset StopId) : Array (Arrival α) × Multiset StopId :=
  if (entry departure a).time < known.time then
    (state.1.setIfInBounds a.stop.index (entry departure a), state.2.ndinsert a.stop)
  else state

/-- Walks from the place of departure to a stop, where improved stops have no order. -/
def enterUnordered (departure : α) (state : Array (Arrival α) × Multiset StopId)
    (a : NearStop α) : Checked (Array (Arrival α) × Multiset StopId) := do
  let known ← fetch state.1 a.stop.index
  return reachUnordered departure a known state

theorem unordered_enter (departure : α) (state : RoundState α) (a : NearStop α) :
    RoundState.unordered <$> enter departure state a =
      enterUnordered departure state.unordered a := by
  unfold enter
  rw [map_bind]
  refine bind_congr fun known => ?_
  rw [map_pure, reachUnordered]
  change pure (if (entry departure a).time < known.time then
    state.improve a.stop (entry departure a) else state).unordered = _
  split_ifs
  · rw [RoundState.unordered_improve]
    rfl
  · rfl

theorem fetch_reachUnordered {a b : NearStop α} (h : a.stop ≠ b.stop) (departure : α)
    (known : Arrival α) (state : Array (Arrival α) × Multiset StopId) :
    fetch (reachUnordered departure a known state).1 b.stop.index =
      fetch state.1 b.stop.index := by
  unfold reachUnordered
  split
  · exact fetch_setIfInBounds_of_ne fun heq => h (Id.index_injective heq)
  · rfl

theorem reachUnordered_comm {a b : NearStop α} (h : a.stop ≠ b.stop) (departure : α)
    (known known' : Arrival α) (state : Array (Arrival α) × Multiset StopId) :
    reachUnordered departure b known' (reachUnordered departure a known state) =
      reachUnordered departure a known (reachUnordered departure b known' state) := by
  have hindex : a.stop.index ≠ b.stop.index := fun heq => h (Id.index_injective heq)
  unfold reachUnordered
  split_ifs
  · rw [Array.setIfInBounds_comm _ _ hindex, ndinsert_comm]
  all_goals rfl

theorem enterUnordered_comm {a b : NearStop α} (h : a.stop ≠ b.stop) (departure : α)
    (state : Array (Arrival α) × Multiset StopId) :
    (enterUnordered departure state a >>= fun next => enterUnordered departure next b) =
      (enterUnordered departure state b >>= fun next => enterUnordered departure next a) := by
  simp only [enterUnordered, bind_assoc, pure_bind, fetch_reachUnordered h,
    fetch_reachUnordered h.symm, reachUnordered_comm h]
  rcases fetch_cases state.1 a.stop.index with ha | ⟨known, ha⟩ <;>
    rcases fetch_cases state.1 b.stop.index with hb | ⟨known', hb⟩ <;>
    rw [ha, hb] <;> rfl

/-- Walks to different stops may be made in any order. -/
theorem unordered_foldlM_of_perm (honce : (access.map NearStop.stop).Nodup)
    (hperm : access.Perm other) (departure : α) (state : RoundState α) :
    RoundState.unordered <$> access.foldlM (enter departure) state =
      RoundState.unordered <$> other.foldlM (enter departure) state := by
  rw [map_foldlM access fun a _ state => unordered_enter departure state a,
    map_foldlM other fun a _ state => unordered_enter departure state a]
  refine foldlM_eq_of_perm hperm (fun a ha b hb state => ?_) _
  by_cases hsame : a = b
  · rw [hsame]
  · exact enterUnordered_comm (fun h => hsame (List.inj_on_of_nodup_map honce ha hb h)) ..

/-- A tree does not depend on the order of the stops near the place. -/
theorem tree_of_perm (honce : (access.map NearStop.stop).Nodup) (hperm : access.Perm other)
    (departure : α) : router.tree access departure = router.tree other departure := by
  have hfold := unordered_foldlM_of_perm honce hperm departure
    { best := Array.replicate router.timetable.stopCount Arrival.unreached, improved := [] }
  unfold tree
  generalize access.foldlM (enter departure) _ = x at hfold
  generalize other.foldlM (enter departure) _ = y at hfold
  cases x with
  | error e =>
    cases y with
    | error e' => cases hfold; rfl
    | ok state' => cases hfold
  | ok state =>
    cases y with
    | error e' => cases hfold
    | ok state' =>
      obtain ⟨hbest, himproved⟩ := Prod.mk.inj (Except.ok.inj hfold)
      change (do let result ← router.rounds _ 0 state.improved state.best; _) =
        (do let result ← router.rounds _ 0 state'.improved state'.best; _)
      rw [hbest, rounds_of_perm (Multiset.coe_eq_coe.mp himproved)]

end TransitRouter

/-! ## The departures of a window -/

namespace TransitRouter

section Repeats

variable [Scalar α] {times : List α}

/-- The first element is kept. -/
theorem exists_dropRepeats_cons (time : α) (times : List α) :
    ∃ rest, dropRepeats (time :: times) = time :: rest := by
  cases times with
  | nil => exact ⟨[], rfl⟩
  | cons next times =>
    rw [dropRepeats]
    split
    · exact ⟨[], rfl⟩
    · split
      · exact ⟨_, rfl⟩
      · exact ⟨_, rfl⟩

theorem dropRepeats_cons (time next : α) (times : List α) {rest : List α}
    (h : dropRepeats (next :: times) = next :: rest) :
    dropRepeats (time :: next :: times) =
      if time == next then time :: rest else time :: next :: rest := by
  rw [dropRepeats, h]

theorem dropRepeats_sublist : ∀ times : List α, (dropRepeats times).Sublist times
  | [] => .slnil
  | [_] => .refl _
  | time :: next :: times => by
    obtain ⟨rest, hrest⟩ := exists_dropRepeats_cons next times
    have hsub := dropRepeats_sublist (next :: times)
    rw [hrest] at hsub
    rw [dropRepeats_cons time next times hrest]
    split
    · exact ((List.sublist_cons_self next rest).trans hsub).cons_cons time
    · exact hsub.cons_cons time

variable [LawfulScalar α] [LawfulSorting α]

/-- What is left of times in order ascends. -/
theorem pairwise_dropRepeats : ∀ {times : List α}, times.Pairwise (· ≤ ·) →
    (dropRepeats times).Pairwise (· < ·)
  | [], _ => .nil
  | [_], _ => List.pairwise_singleton _ _
  | time :: next :: times, h => by
    obtain ⟨hfirst, hnext⟩ := List.pairwise_cons.mp h
    have hle : time ≤ next := hfirst next List.mem_cons_self
    obtain ⟨rest, hrest⟩ := exists_dropRepeats_cons next times
    have ih := pairwise_dropRepeats hnext
    rw [hrest] at ih
    have hlate : ∀ later ∈ rest, time < later := fun later hlater =>
      Scalar.lt_of_le_of_lt hle ((List.pairwise_cons.mp ih).1 later hlater)
    rw [dropRepeats_cons time next times hrest]
    split
    · exact List.pairwise_cons.mpr ⟨hlate, (List.pairwise_cons.mp ih).2⟩
    · next hne =>
      have hlt : time < next := LawfulScalar.lt_iff.mpr
        ⟨hle, fun hge => hne (LawfulSorting.beq_iff.mpr ⟨hle, hge⟩)⟩
      exact List.pairwise_cons.mpr ⟨List.forall_mem_cons.mpr ⟨hlt, hlate⟩, ih⟩

theorem beq_self {time : α} (h : Scalar.IsNumber time) : (time == time) = true :=
  LawfulSorting.beq_iff.mpr ⟨Scalar.le_refl h, Scalar.le_refl h⟩

/-- A time that was dropped is equal, as a number, to one that is left. -/
theorem exists_beq_of_mem : ∀ {times : List α}, (∀ time ∈ times, Scalar.IsNumber time) →
    ∀ time ∈ times, ∃ kept ∈ dropRepeats times, (kept == time) = true
  | [], _ => nofun
  | [time], hnumbers => List.forall_mem_singleton.mpr
      ⟨time, List.mem_singleton_self time, beq_self (hnumbers time List.mem_cons_self)⟩
  | first :: next :: times, hnumbers => by
    obtain ⟨rest, hrest⟩ := exists_dropRepeats_cons next times
    have ih := exists_beq_of_mem fun time h => hnumbers time (List.mem_cons_of_mem first h)
    rw [hrest] at ih
    rw [dropRepeats_cons first next times hrest]
    have hself := beq_self (hnumbers first List.mem_cons_self)
    split
    · next hrepeat =>
      obtain ⟨hle, hge⟩ := LawfulSorting.beq_iff.mp hrepeat
      refine List.forall_mem_cons.mpr ⟨⟨first, List.mem_cons_self, hself⟩, fun time htime => ?_⟩
      obtain ⟨kept, hkept, heq⟩ := ih time htime
      rcases List.mem_cons.mp hkept with rfl | hkept
      · obtain ⟨hle', hge'⟩ := LawfulSorting.beq_iff.mp heq
        exact ⟨first, List.mem_cons_self, LawfulSorting.beq_iff.mpr
          ⟨Scalar.le_trans hle hle', Scalar.le_trans hge' hge⟩⟩
      · exact ⟨kept, List.mem_cons_of_mem first hkept, heq⟩
    · refine List.forall_mem_cons.mpr ⟨⟨first, List.mem_cons_self, hself⟩, fun time htime => ?_⟩
      obtain ⟨kept, hkept, heq⟩ := ih time htime
      exact ⟨kept, List.mem_cons_of_mem first hkept, heq⟩

end Repeats

section Departures

variable [Scalar α] [LawfulScalar α] [LawfulSorting α] {router : TransitRouter α}
  {access other : List (NearStop α)} {window : Window α}

/-- The departures of a window ascend, and one of them is at each time that catches a trip. -/
theorem departures_ascend (htimetable : router.timetable.Sound)
    (haccess : ∀ a ∈ access, router.timetable.contains a.stop = true) (window : Window α) :
    Returns (router.departures access window) fun times =>
      times.Pairwise (· < ·) ∧ (∀ time ∈ times, window.contains time = true) ∧
        ∀ time, Catches router.timetable access time → window.contains time = true →
          ∃ kept ∈ times, (kept == time) = true := by
  unfold departures
  refine Returns.bind (candidates_spec htimetable haccess window)
    fun lists hlists => Returns.pure ⟨?_, fun time htime => ?_, fun time hcatch hwindow => ?_⟩
  · exact pairwise_dropRepeats (Scalar.pairwise_mergeSort fun time htime =>
      Scalar.isNumber_right (Window.contains_iff.mp ((hlists time).mp htime).2).1)
  · have hmem := (dropRepeats_sublist _).subset htime
    exact ((hlists time).mp (List.mem_mergeSort.mp hmem)).2
  · refine exists_beq_of_mem (fun time htime => ?_) time
      (List.mem_mergeSort.mpr ((hlists time).mpr ⟨hcatch, hwindow⟩))
    exact Scalar.isNumber_right
      (Window.contains_iff.mp ((hlists time).mp (List.mem_mergeSort.mp htime)).2).1

/-- The departures of a window do not depend on the order of the stops near the place. -/
theorem departures_of_perm (htimetable : router.timetable.Sound)
    (haccess : ∀ a ∈ access, router.timetable.contains a.stop = true)
    (hperm : access.Perm other) :
    router.departures access window = router.departures other window := by
  obtain ⟨lists, hlists, -⟩ := candidates_spec htimetable haccess window
  obtain ⟨lists', hlists', hsame⟩ := exists_mapM_of_perm hperm hlists
  have hsorted := Scalar.mergeSort_eq_of_perm hsame.flatten
  unfold departures
  rw [hlists, hlists']
  exact congrArg (fun times => Except.ok (dropRepeats times)) hsorted

omit [LawfulScalar α] [LawfulSorting α] in
/-- There is one tree for each departure, in their order. -/
theorem departures_of_trees {trees : List (TransitTree α)}
    (h : router.trees access window = .ok trees) :
    router.departures access window = .ok (trees.map TransitTree.departure) := by
  obtain ⟨times, htimes, hmade⟩ := bind_eq_ok.mp h
  have hsame : List.Forall₂ (· = ·) times (trees.map TransitTree.departure) :=
    List.forall₂_map_right_iff.mpr
      ((mapM_eq_ok_iff.mp hmade).imp fun _ _ htree => (departure_of_tree htree).symm)
  rw [List.forall₂_eq_eq_eq] at hsame
  rw [htimes, hsame]

/-- The trees of a window are those of its departures. -/
theorem trees_ascend {isTrain : Route α → Bool} (hrouter : router.Sound isTrain)
    (haccess : ∀ a ∈ access, router.timetable.contains a.stop = true) (window : Window α) :
    Returns (router.trees access window) fun trees =>
      (trees.map TransitTree.departure).Pairwise (· < ·) ∧
      (∀ tree ∈ trees, window.contains tree.departure = true ∧
        router.tree access tree.departure = .ok tree) ∧
      ∀ time, Catches router.timetable access time → window.contains time = true →
        ∃ tree ∈ trees, (tree.departure == time) = true := by
  obtain ⟨times, htimes, hascend, hwithin, hcomplete⟩ :=
    departures_ascend hrouter.timetable haccess window
  have hmake : ∀ time ∈ times, Returns (router.tree access time) fun tree =>
      router.tree access time = .ok tree := fun time _ =>
    (exists_tree hrouter haccess time).imp fun tree htree => ⟨htree, htree⟩
  obtain ⟨trees, hmade, hsound, -⟩ := Returns.mapM hmake
  have htrees : router.trees access window = .ok trees := bind_eq_ok.mpr ⟨times, htimes, hmade⟩
  obtain rfl : times = trees.map TransitTree.departure :=
    Except.ok.inj (htimes.symm.trans (departures_of_trees htrees))
  refine ⟨trees, htrees, hascend, fun tree htree => ⟨?_, ?_⟩, fun time hcatch hwindow => ?_⟩
  · exact hwithin _ (List.mem_map_of_mem htree)
  · obtain ⟨time, -, htime⟩ := hsound tree htree
    rwa [departure_of_tree htime]
  · obtain ⟨kept, hkept, heq⟩ := hcomplete time hcatch hwindow
    obtain ⟨tree, htree, rfl⟩ := List.mem_map.mp hkept
    exact ⟨tree, htree, heq⟩

/-- In a built timetable, two lists of the same stops near a place, none of them named twice, give
the same tree for every departure and the same trees for every window. These have ascending
departures in the window, each with the tree of that departure. -/
theorem access_order_irrelevant {draft : TimetableDraft α} {timetable : Timetable α}
    {router : TransitRouter α} (parameters : RouterParameters α) (isTrain : Route α → Bool)
    (hdraft : draft.Drafted) (hbuild : draft.build = .ok timetable)
    (hstops : timetable.stopCount < 2 ^ 32 - 1) (hroutes : timetable.routeCount < 2 ^ 32 - 1)
    (hnew : TransitRouter.new timetable parameters isTrain = .ok router)
    {access other : List (NearStop α)}
    (haccess : ∀ a ∈ access, timetable.contains a.stop = true)
    (honce : (access.map NearStop.stop).Nodup) (hperm : access.Perm other) (departure : α)
    (window : Window α) :
    (∃ tree, router.tree access departure = .ok tree ∧
      router.tree other departure = .ok tree) ∧
    ∃ trees, router.trees access window = .ok trees ∧ router.trees other window = .ok trees ∧
      (trees.map TransitTree.departure).Pairwise (· < ·) ∧
      ∀ tree ∈ trees, window.contains tree.departure = true ∧
        router.tree access tree.departure = .ok tree := by
  have htimetable := hdraft.sound_build hbuild (by omega) (by omega)
  obtain ⟨hrouter, -, rfl, -⟩ := sound_of_new htimetable hnew
  obtain ⟨tree, htree⟩ := exists_tree hrouter haccess departure
  obtain ⟨trees, htrees, hascend, hmade, -⟩ := trees_ascend hrouter haccess window
  have hsame : router.trees other window = router.trees access window := by
    unfold TransitRouter.trees
    rw [departures_of_perm htimetable haccess hperm, funext (tree_of_perm honce hperm)]
  exact ⟨⟨tree, htree, tree_of_perm honce hperm departure ▸ htree⟩, trees, htrees,
    hsame.trans htrees, hascend, hmade⟩

end Departures

end TransitRouter

/-! ## An example -/

/-- The bus stop and the station are both in walking distance. -/
def nearBusAndTrain : List (NearStop Float) := [⟨⟨0⟩, 45⟩, ⟨⟨2⟩, 50.5⟩]

theorem access_order_irrelevant_busAndTrain : ∃ draft timetable router tree trees,
    busAndTrain = .ok draft ∧ draft.Drafted ∧ draft.build = .ok timetable ∧
      timetable.stopCount < 2 ^ 32 - 1 ∧ timetable.routeCount < 2 ^ 32 - 1 ∧
      TransitRouter.new timetable .standard (fun route => decide (route.mode = .rail)) = .ok router ∧
      (∀ a ∈ nearBusAndTrain, timetable.contains a.stop = true) ∧
      (nearBusAndTrain.map NearStop.stop).Nodup ∧ nearBusAndTrain.Perm nearBusAndTrain.reverse ∧
      router.tree nearBusAndTrain 55 = .ok tree ∧
      router.tree nearBusAndTrain.reverse 55 = .ok tree ∧
      router.trees nearBusAndTrain ⟨0, 1000⟩ = .ok trees ∧
      router.trees nearBusAndTrain.reverse ⟨0, 1000⟩ = .ok trees ∧
      (trees.map TransitTree.departure).Pairwise (· < ·) := by
  have hdraft := drafted_busAndTrain _ rfl
  have hperm := (List.reverse_perm nearBusAndTrain).symm
  obtain ⟨⟨tree, htree, htree'⟩, trees, htrees, htrees', hascend, -⟩ :=
    TransitRouter.access_order_irrelevant .standard (fun route => decide (route.mode = .rail))
      hdraft rfl (by decide) (by decide) rfl (by decide) (by decide) hperm 55 ⟨0, 1000⟩
  exact ⟨_, _, _, tree, trees, rfl, hdraft, rfl, by decide, by decide, rfl, by decide, by decide,
    hperm, htree, htree', htrees, htrees', hascend⟩

end ZoneSkims
