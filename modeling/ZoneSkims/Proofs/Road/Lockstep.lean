import ZoneSkims.Proofs.Road.Search

/-!
# Searches in lockstep

Two searches whose link functions do not depend on the time take the same steps as long as they
find the same links at every node, in the same order and with the same lengths and far ends. So
both fail in the same way, or both settle the same nodes with the same labels. Only the times of day
differ: what relates the clocks at the roots relates them at every node, if it is kept along every
link.

* `LinkFunction.Timeless`: values that do not depend on the time.
* `SearchState.Alike`, `PathTree.Agrees`: what the states and trees of two searches have in common.
* `RoadError.FailAlike`: failures that differ at most in the time of day.
* `RoadSearch.Lockstep`: searches that find the same links.
* `RoadSearch.Lockstep.run`: such searches side by side.
-/

namespace ZoneSkims

variable {α : Type}

/-- The values do not depend on the time. -/
def LinkFunction.Timeless (f : LinkFunction α) : Prop :=
  ∀ id time time', f.value id time = f.value id time'

/-! ## States side by side -/

/-- Labels that differ at most in their times of day, which are related by `R`. -/
structure Label.Alike (R : α → α → Prop) (label other : Label α) : Prop where
  cost : label.cost = other.cost
  time : R label.time other.time
  distance : label.distance = other.distance
  settled : label.settled = other.settled
  pred : label.pred = other.pred

/-- States that differ at most in the times of day of their labels. -/
structure SearchState.Alike (R : α → α → Prop) (state other : SearchState α) : Prop where
  size : state.labels.size = other.labels.size
  frontier : state.frontier = other.frontier
  settled : state.settled = other.settled
  labelAt : ∀ node, Option.Rel (Label.Alike R) (state.labelAt node) (other.labelAt node)

/-- Trees that differ at most in the times of day. -/
structure PathTree.Agrees (tree other : PathTree α) : Prop where
  settled : tree.settled = other.settled
  cost : ∀ node, tree.cost? node = other.cost? node
  distance : ∀ node, tree.distance? node = other.distance? node
  pred : ∀ node, Label.pred <$> tree.label? node = Label.pred <$> other.label? node

variable {R : α → α → Prop} {state other : SearchState α} {node : NodeId}
  {label label' near near' : Label α}

namespace SearchState.Alike

theorem withFrontier (h : state.Alike R other) (rest : Frontier α) :
    Alike R { state with frontier := rest } { other with frontier := rest } :=
  ⟨h.size, rfl, h.settled, h.labelAt⟩

theorem exists_labelAt (h : state.Alike R other) (hlabel : state.labelAt node = some label) :
    ∃ label', other.labelAt node = some label' ∧ label.Alike R label' := by
  have hrel := h.labelAt node
  rw [hlabel] at hrel
  generalize hother : other.labelAt node = known at hrel
  cases hrel with
  | some halike => exact ⟨_, rfl, halike⟩

theorem exists_labelAt' (h : state.Alike R other) (hlabel : other.labelAt node = some label') :
    ∃ label, state.labelAt node = some label ∧ label.Alike R label' := by
  have hrel := h.labelAt node
  rw [hlabel] at hrel
  generalize hstate : state.labelAt node = known at hrel
  cases hrel with
  | some halike => exact ⟨_, rfl, halike⟩

/-- Equal labels in one place, and labels as before in the others. -/
theorem close (h : state.Alike R other) (hlabel : label.Alike R label')
    (hnode : node.index < state.labels.size) :
    (state.close node label).Alike R (other.close node label') := by
  refine ⟨?_, h.frontier, congrArg (node :: ·) h.settled, fun place => ?_⟩
  · rw [SearchState.close, SearchState.close, Array.size_setIfInBounds, Array.size_setIfInBounds]
    exact h.size
  · by_cases hplace : place = node
    · subst hplace
      rw [labelAt_close_self hnode, labelAt_close_self (h.size ▸ hnode)]
      exact .some ⟨hlabel.cost, hlabel.time, hlabel.distance, rfl, hlabel.pred⟩
    · rw [labelAt_close_of_ne hplace, labelAt_close_of_ne hplace]
      exact h.labelAt place

theorem any_settled (h : state.Alike R other) (node : NodeId) :
    (state.labelAt node).any Label.settled = (other.labelAt node).any Label.settled := by
  have hrel := h.labelAt node
  generalize state.labelAt node = known at hrel
  generalize other.labelAt node = known' at hrel
  cases hrel with
  | some halike => exact halike.settled
  | none => rfl

variable [Scalar α]

theorem costOf_eq (h : state.Alike R other) (node : NodeId) :
    RoadSearch.costOf (state.labelAt node) = RoadSearch.costOf (other.labelAt node) := by
  have hrel := h.labelAt node
  generalize state.labelAt node = known at hrel
  generalize other.labelAt node = known' at hrel
  cases hrel with
  | some halike => exact halike.cost
  | none => rfl

theorem lower (h : state.Alike R other) (hlabel : label.Alike R label')
    (hnode : node.index < state.labels.size) :
    (state.lower node label).Alike R (other.lower node label') := by
  refine ⟨?_, ?_, h.settled, fun place => ?_⟩
  · rw [SearchState.lower, SearchState.lower, Array.size_setIfInBounds, Array.size_setIfInBounds]
    exact h.size
  · rw [SearchState.lower, SearchState.lower, h.frontier, hlabel.cost]
  · by_cases hplace : place = node
    · subst hplace
      rw [labelAt_lower_self hnode, labelAt_lower_self (h.size ▸ hnode)]
      exact .some hlabel
    · rw [labelAt_lower_of_ne hplace, labelAt_lower_of_ne hplace]
      exact h.labelAt place

theorem stale (h : state.Alike R other) {entry : Frontier.Entry α}
    (hstale : RoadSearch.Stale state entry) : RoadSearch.Stale other entry := by
  intro known hknown
  obtain ⟨label, hlabel, halike⟩ := h.exists_labelAt' hknown
  rw [← halike.settled, ← halike.cost]
  exact hstale label hlabel

theorem exists_live (h : state.Alike R other) {entry : Frontier.Entry α}
    (hlive : RoadSearch.Live state entry label) :
    ∃ label', RoadSearch.Live other entry label' ∧ label.Alike R label' := by
  obtain ⟨label', hlabel', halike⟩ := h.exists_labelAt hlive.known
  exact ⟨label', ⟨hlabel', halike.settled ▸ hlive.unsettled, halike.cost ▸ hlive.not_cheaper⟩,
    halike⟩

end SearchState.Alike

/-! ## Faults -/

/-- The same fault, at whatever time of day. -/
inductive RoadError.Alike : RoadError α → RoadError α → Prop
  | unknownNode (node : NodeId) : Alike (.unknownNode node) (.unknownNode node)
  | notFinite (kind : LinkQuantity) (link : LinkId) (time time' value : α) :
    Alike (.notFinite kind link time value) (.notFinite kind link time' value)
  | negative (kind : LinkQuantity) (link : LinkId) (time time' value : α) :
    Alike (.negative kind link time value) (.negative kind link time' value)
  | lateDecrease (node : NodeId) (link : LinkId) (settled candidate : α) :
    Alike (.lateDecrease node link settled candidate) (.lateDecrease node link settled candidate)

/-- The same failure, at whatever time of day. -/
inductive RoadError.FailAlike : Failure (RoadError α) → Failure (RoadError α) → Prop
  | fault {e e' : RoadError α} : e.Alike e' → FailAlike (.fault e) (.fault e')
  | breach (b : Breach) : FailAlike (.breach b) (.breach b)

open RoadError (FailAlike)

/-- A calculation without faults ends alike with any that reads related data. -/
theorem Paired.lift {β γ : Type} {S : β → γ → Prop} {x : Checked β} {y : Checked γ}
    (h : Paired Eq S x y) :
    Paired FailAlike S (liftM x : Outcome (RoadError α) β) (liftM y : Outcome (RoadError α) γ) := by
  cases h with
  | error he =>
    cases he
    exact .error (.breach _)
  | ok hab => exact .ok hab

theorem paired_fetch (h : state.Alike R other) (node : NodeId) :
    Paired Eq (fun known known' => node.index < state.labels.size ∧
        known = state.labelAt node ∧ known' = other.labelAt node)
      (fetch state.labels node.index) (fetch other.labels node.index) := by
  have hread (s : SearchState α) (hnode : node.index < s.labels.size) :
      s.labels[node.index] = s.labelAt node := by
    rw [SearchState.labelAt, Array.getElem?_eq_getElem hnode]
    rfl
  by_cases hnode : node.index < state.labels.size
  · have hnode' : node.index < other.labels.size := h.size ▸ hnode
    rw [fetch_of_lt hnode, fetch_of_lt hnode']
    exact .ok ⟨hnode, hread state hnode, hread other hnode'⟩
  · have hnode' : ¬ node.index < other.labels.size := h.size ▸ hnode
    rw [fetch, fetch, Array.getElem?_eq_none (Nat.le_of_not_lt hnode),
      Array.getElem?_eq_none (Nat.le_of_not_lt hnode')]
    exact .error rfl

/-! ## Searches side by side -/

variable [Scalar α]

namespace RoadSearch

/-- The values of both link functions do not depend on the time. -/
structure Timeless (search : RoadSearch α) : Prop where
  travelTime : search.travelTime.Timeless
  cost : search.cost.Timeless

/-- Searches, each in a direction of its own, that find the same links at every node and the same
values for them. What relates their clocks is kept along every link. -/
structure Lockstep (R : α → α → Prop) (search search' : RoadSearch α)
    (direction direction' : Direction) : Prop where
  timeless : search.Timeless
  travelTime_eq : search'.travelTime = search.travelTime
  cost_eq : search'.cost = search.cost
  nodeCount_eq : search'.network.nodeCount = search.network.nodeCount
  linkCount_eq : search'.network.linkCount = search.network.linkCount
  links_eq (node : NodeId) :
    direction'.links search'.network node = direction.links search.network node
  link (id : LinkId) : Paired Eq
    (fun link link' => direction'.farEnd link' = direction.farEnd link ∧ link'.length = link.length)
    (search.network.link id) (search'.network.link id)
  after (time time' travelTime : α) : Scalar.isFinite travelTime = true → R time time' →
    R (direction.after time travelTime) (direction'.after time' travelTime)

variable {search search' : RoadSearch α} {direction direction' : Direction} {maxCost : α}
  {target : Option NodeId}

theorem paired_checkValue (kind : LinkQuantity) (id : LinkId) (time time' value : α) :
    Paired FailAlike (fun _ _ => Scalar.isFinite value = true) (checkValue kind id time value)
      (checkValue kind id time' value) := by
  unfold checkValue
  split
  · exact .error (.fault (.notFinite kind id time time' value))
  · next hfinite =>
    split
    · exact .error (.fault (.negative kind id time time' value))
    · exact .ok (by simpa using hfinite)

namespace Lockstep

variable (h : Lockstep R search search' direction direction')

include h

theorem linkValues (id : LinkId) (time time' : α) :
    Paired FailAlike (fun values values' => values = values' ∧ Scalar.isFinite values.1 = true)
      (search.linkValues id time) (search'.linkValues id time') := by
  have htravelTime : search'.travelTime.value id time' = search.travelTime.value id time := by
    rw [h.travelTime_eq, h.timeless.travelTime id time' time]
  have hcost : search'.cost.value id time' = search.cost.value id time := by
    rw [h.cost_eq, h.timeless.cost id time' time]
  unfold RoadSearch.linkValues
  rw [htravelTime, hcost]
  refine (Paired.self _).lift.bind ?_
  rintro travelTime _ rfl
  refine (paired_checkValue _ _ _ _ _).bind fun _ _ hfinite => ?_
  refine (Paired.self _).lift.bind ?_
  rintro cost _ rfl
  exact (paired_checkValue _ _ _ _ _).bind fun _ _ _ => .ok ⟨rfl, hfinite⟩

theorem start {root : NodeId} {rootTime rootTime' : α}
    (hcontains : search.network.contains root = true) (hroot : R rootTime rootTime') :
    (search.start root rootTime).Alike R (search'.start root rootTime') := by
  have hcontains' : search'.network.contains root = true := by
    rwa [Network.contains, h.nodeCount_eq]
  refine ⟨by simp [RoadSearch.start, h.nodeCount_eq], rfl, rfl, fun node => ?_⟩
  by_cases hnode : node = root
  · rw [(labelAt_start hcontains).mpr ⟨hnode, rfl⟩, (labelAt_start hcontains').mpr ⟨hnode, rfl⟩]
    exact .some ⟨rfl, hroot, rfl, rfl, rfl⟩
  · have hnone : (search.start root rootTime).labelAt node = none :=
      Option.eq_none_iff_forall_ne_some.mpr fun label hlabel =>
        hnode ((labelAt_start hcontains).mp hlabel).1
    have hnone' : (search'.start root rootTime').labelAt node = none :=
      Option.eq_none_iff_forall_ne_some.mpr fun label hlabel =>
        hnode ((labelAt_start hcontains').mp hlabel).1
    rw [hnone, hnone']
    exact .none

/-- Both searches follow a link in the same way. -/
theorem relax (hnear : near.Alike R near') (hstate : state.Alike R other) (id : LinkId) :
    Paired FailAlike (SearchState.Alike R) (search.relax direction near state id)
      (search'.relax direction' near' other id) := by
  unfold RoadSearch.relax
  refine (h.link id).lift.bind ?_
  rintro link link' ⟨hfarEnd, hlength⟩
  refine (h.linkValues id near.time near'.time).bind ?_
  rintro ⟨travelTime, linkCost⟩ _ ⟨rfl, hfinite⟩
  simp only [hfarEnd]
  refine (paired_fetch hstate (direction.farEnd link)).lift.bind ?_
  rintro _ _ ⟨hfar, rfl, rfl⟩
  simp only [hstate.costOf_eq, hstate.any_settled, hnear.cost]
  by_cases hsettled : (other.labelAt (direction.farEnd link)).any Label.settled = true
  · by_cases hlate : near'.cost + linkCost < costOf (other.labelAt (direction.farEnd link))
    · rw [if_pos hsettled, if_pos hsettled, if_pos hlate, if_pos hlate]
      exact .error (.fault (.lateDecrease _ _ _ _))
    · rw [if_pos hsettled, if_pos hsettled, if_neg hlate, if_neg hlate]
      exact .ok hstate
  · by_cases hless : near'.cost + linkCost < costOf (other.labelAt (direction.farEnd link))
    · rw [if_neg hsettled, if_neg hsettled, if_pos hless, if_pos hless]
      have hdistance : near.distance + link.length = near'.distance + link'.length := by
        rw [hnear.distance, hlength]
      exact .ok (hstate.lower ⟨rfl, h.after _ _ _ hfinite hnear.time, hdistance, rfl, rfl⟩ hfar)
    · rw [if_neg hsettled, if_neg hsettled, if_neg hless, if_neg hless]
      exact .ok hstate

theorem settle (hlabel : label.Alike R label') (hstate : state.Alike R other)
    (hnode : node.index < state.labels.size) :
    Paired FailAlike (SearchState.Alike R) (search.settle direction target state node label)
      (search'.settle direction' target other node label') := by
  have hclose := hstate.close hlabel hnode
  unfold RoadSearch.settle
  by_cases htarget : target = some node
  · rw [if_pos htarget, if_pos htarget]
    exact .ok hclose
  · rw [if_neg htarget, if_neg htarget, h.links_eq]
    refine (Paired.self _).lift.bind ?_
    rintro links _ rfl
    exact Paired.foldlM (fun id _ _ _ hbefore => h.relax hlabel hbefore id) hclose

/-- Both searches take the same entries from the frontier. -/
theorem explore (entries : Nat) : ∀ state other : SearchState α, state.Alike R other →
    Paired FailAlike (SearchState.Alike R) (search.explore direction maxCost target entries state)
      (search'.explore direction' maxCost target entries other) := by
  induction entries with
  | zero => exact fun state other hstate => .ok hstate
  | succ entries ih =>
    intro state other hstate
    cases hpop : state.frontier.pop? with
    | none =>
      rw [explore_done hpop, explore_done (hstate.frontier ▸ hpop)]
      exact .ok hstate
    | some popped =>
      obtain ⟨entry, rest⟩ := popped
      have hpop' : other.frontier.pop? = some (entry, rest) := hstate.frontier ▸ hpop
      have hrest := hstate.withFrontier rest
      obtain hstale | ⟨label, hlive⟩ := stale_or_live state entry
      · rw [explore_skip hpop hstale, explore_skip hpop' (hstate.stale hstale)]
        exact ih _ _ hrest
      · obtain ⟨label', hlive', hlabel⟩ := hstate.exists_live hlive
        by_cases hbound : maxCost < entry.cost
        · rw [explore_stop hpop hlive hbound, explore_stop hpop' hlive' hbound]
          exact .ok hrest
        · rw [explore_settle hpop hlive hbound, explore_settle hpop' hlive' hbound]
          refine (h.settle hlabel hrest
            (SearchState.lt_of_labelAt hlive.known)).bind fun next next' hnext => ?_
          by_cases htarget : target = some entry.node
          · rw [if_pos htarget, if_pos htarget]
            exact .ok hnext
          · rw [if_neg htarget, if_neg htarget]
            exact ih _ _ hnext

/-- Searches in lockstep end alike. -/
theorem run {root : NodeId} {rootTime rootTime' : α} (hroot : R rootTime rootTime') :
    Paired FailAlike
      (fun tree tree' => ∃ final final' : SearchState α,
        tree = SearchState.tree root direction rootTime final ∧
          tree' = SearchState.tree root direction' rootTime' final' ∧ final.Alike R final')
      (search.run root rootTime direction maxCost target)
      (search'.run root rootTime' direction' maxCost target) := by
  have hsame : search'.network.contains root = search.network.contains root := by
    rw [Network.contains, Network.contains, h.nodeCount_eq]
  by_cases hcontains : search.network.contains root = true
  · rw [run_eq hcontains, run_eq (hsame ▸ hcontains), h.linkCount_eq, map_eq_pure_bind,
      map_eq_pure_bind]
    refine (h.explore (search.network.linkCount + 1) _ _ (h.start hcontains hroot)).bind
      fun final final' halike => ?_
    exact .ok ⟨final, final', rfl, rfl, halike⟩
  · rw [RoadSearch.run, RoadSearch.run, if_neg hcontains, if_neg (hsame ▸ hcontains)]
    exact .error (.fault (.unknownNode root))

end Lockstep

end RoadSearch

/-! ## Trees -/

namespace SearchState.Alike

variable {root : NodeId} {direction : Direction} {rootTime rootTime' : α}

omit [Scalar α] in
theorem label? (root : NodeId) (direction : Direction) (rootTime rootTime' : α)
    (h : state.Alike R other) (node : NodeId) :
    Option.Rel (Label.Alike R) ((tree root direction rootTime state).label? node)
      ((tree root direction rootTime' other).label? node) := by
  have hrel := h.labelAt node
  change Option.Rel _ ((state.labelAt node).filter Label.settled)
    ((other.labelAt node).filter Label.settled)
  generalize state.labelAt node = known at hrel
  generalize other.labelAt node = known' at hrel
  cases hrel with
  | none => exact .none
  | @some label label' halike =>
    rw [Option.filter_some, Option.filter_some, halike.settled]
    split
    · exact .some halike
    · exact .none

omit [Scalar α] in
theorem map_label? {γ : Type} {f g : Label α → γ} (h : state.Alike R other)
    (hvalue : ∀ label label' : Label α, label.Alike R label' → f label = g label')
    (node : NodeId) : f <$> (tree root direction rootTime state).label? node =
      g <$> (tree root direction rootTime' other).label? node := by
  have hrel := h.label? root direction rootTime rootTime' node
  generalize (tree root direction rootTime state).label? node = known at hrel
  generalize (tree root direction rootTime' other).label? node = known' at hrel
  cases hrel with
  | none => rfl
  | some halike => exact congrArg some (hvalue _ _ halike)

omit [Scalar α] in
theorem agrees (h : state.Alike R other) :
    (tree root direction rootTime state).Agrees (tree root direction rootTime' other) where
  settled := h.settled
  cost := h.map_label? fun _ _ halike => halike.cost
  distance := h.map_label? fun _ _ halike => halike.distance
  pred := h.map_label? fun _ _ halike => halike.pred

end SearchState.Alike

end ZoneSkims
