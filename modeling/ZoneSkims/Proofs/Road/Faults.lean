import ZoneSkims.Proofs.Road.Discipline

/-!
# Faults of link functions

A search reads both functions on every link that leaves a node it settles, at the time of the label
there, and nothing else. So it succeeds only when all these values can be used, and a value that it
complains of is one that the function returns on that link, at a time at which a path of usable
links comes to its near end. Link functions may depend on the time in any way.

* `LinkFunction.IsUsableAt`: the value of a link at a time is finite and not negative.
* `RoadSearch.Walks`: paths of usable links, with the cost and the time that they come to.
* `RoadSearch.Charted`: what every step of a search preserves.
* `RoadSearch.Meets`: what stands behind a complaint.
* `RoadSearch.run_faults`: the main result.
-/

namespace ZoneSkims

variable {α : Type} [Scalar α]

/-! ## Usable values -/

/-- The value of a link at a time is finite and not negative. -/
def LinkFunction.IsUsableAt (f : LinkFunction α) (id : LinkId) (time : α) : Prop :=
  ∃ value, f.value id time = .ok value ∧ Scalar.isFinite value = true ∧ 0 ≤ value

namespace RoadSearch

/-- The link function that gives a quantity. -/
def quantity (search : RoadSearch α) : LinkQuantity → LinkFunction α
  | .travelTime => search.travelTime
  | .cost => search.cost

/-- Both functions have these values on a link at a time, and both can be used. -/
structure Charges (search : RoadSearch α) (id : LinkId) (time travelTime linkCost : α) : Prop where
  travelTime_eq : search.travelTime.value id time = .ok travelTime
  cost_eq : search.cost.value id time = .ok linkCost
  isFinite_travelTime : Scalar.isFinite travelTime = true
  isFinite_cost : Scalar.isFinite linkCost = true
  zero_le_travelTime : 0 ≤ travelTime
  zero_le_cost : 0 ≤ linkCost

/-- The links lead from the root to the node, each is usable at the time at which it is followed,
and these are the cost and the time that they come to. -/
inductive Walks (search : RoadSearch α) (direction : Direction) (root : NodeId) (rootTime : α) :
    List LinkId → NodeId → α → α → Prop
  | start : Walks search direction root rootTime [] root 0 rootTime
  | follow {ids : List LinkId} {id : LinkId} {link : Link α} {cost time travelTime linkCost : α} :
    Walks search direction root rootTime ids (direction.nearEnd link) cost time →
    search.network.links[id.index]? = some link →
    search.Charges id time travelTime linkCost →
      Walks search direction root rootTime (ids ++ [id]) (direction.farEnd link) (cost + linkCost)
        (direction.after time travelTime)

/-- A value of a link function that a search comes upon within its bound. It looks at a cost only
once the travel time has turned out to be usable. -/
structure Meets (search : RoadSearch α) (direction : Direction) (root : NodeId)
    (rootTime maxCost : α) (kind : LinkQuantity) (id : LinkId) (time value : α) : Prop where
  returned : (search.quantity kind).value id time = .ok value
  travelTime : kind = .cost → search.travelTime.IsUsableAt id time
  reached : ∃ link ids cost, search.network.links[id.index]? = some link ∧
    search.Walks direction root rootTime ids (direction.nearEnd link) cost time ∧ cost ≤ maxCost

variable {search : RoadSearch α} {direction : Direction} {root node : NodeId}
  {rootTime maxCost time travelTime linkCost value : α} {near label : Label α} {id : LinkId}
  {link : Link α} {kind : LinkQuantity} {error : RoadError α} {state : SearchState α}
  {moment next : SearchMoment α}

theorem Charges.isUsableAt (h : search.Charges id time travelTime linkCost) (kind : LinkQuantity) :
    (search.quantity kind).IsUsableAt id time := by
  cases kind with
  | travelTime => exact ⟨travelTime, h.travelTime_eq, h.isFinite_travelTime, h.zero_le_travelTime⟩
  | cost => exact ⟨linkCost, h.cost_eq, h.isFinite_cost, h.zero_le_cost⟩

/-! ## The node that was settled last -/

/-- The links that are still to be followed are the last ones of the node that was settled last. -/
structure Current (search : RoadSearch α) (direction : Direction) (maxCost : α)
    (moment : SearchMoment α) (node : NodeId) (followed : List LinkId) : Prop where
  last : moment.state.settled.head? = some node
  known : moment.state.labelAt node = some { moment.near with settled := true }
  links : search.network.leaving direction node = followed ++ moment.pending
  within : ¬ maxCost < moment.near.cost

/-- Whoever offers a label over the next link is the node that was settled last. -/
theorem Current.nearEnd_eq {pending followed : List LinkId}
    (h : Current search direction maxCost moment node followed)
    (hlinks : search.network.linkCount < 2 ^ 32) (hpending : moment.pending = id :: pending)
    (hlink : search.network.links[id.index]? = some link) : direction.nearEnd link = node := by
  have hmem : id ∈ search.network.leaving direction node := by
    rw [h.links, hpending]
    exact List.mem_append_right followed List.mem_cons_self
  obtain ⟨link', hlink', hnear⟩ := (Network.mem_leaving hlinks).mp hmem
  cases hlink.symm.trans hlink'
  exact hnear

/-! ## Complaints -/

theorem checkValue_eq_error (h : checkValue kind id time value = .error (.fault error)) :
    Scalar.isFinite value = false ∧ error = .notFinite kind id time value ∨
      Scalar.isFinite value = true ∧ value < 0 ∧ error = .negative kind id time value := by
  unfold checkValue at h
  split at h
  case isTrue hfinite =>
    cases h
    exact .inl ⟨by simpa using hfinite, rfl⟩
  case isFalse hfinite =>
    split at h
    case isTrue hnegative =>
      cases h
      exact .inr ⟨by simpa using hfinite, hnegative, rfl⟩
    case isFalse => cases h

/-- Following a link fails by a fault of one of its values, or when the offer comes too late. -/
theorem relax_eq_error (h : search.relax direction near state id = .error (.fault error)) :
    (∃ link, search.network.links[id.index]? = some link ∧
      search.linkValues id near.time = .error (.fault error)) ∨
    ∃ late settled candidate, error = .lateDecrease late id settled candidate := by
  unfold relax at h
  rcases bind_eq_error.mp h with h | ⟨link, hlink, h⟩
  · exact absurd h lift_ne_fault
  rcases bind_eq_error.mp h with hvalues | ⟨⟨travelTime, linkCost⟩, -, h⟩
  · exact .inl ⟨link, fetch_eq_ok.mp (lift_eq_ok.mp hlink), hvalues⟩
  rcases bind_eq_error.mp h with h | ⟨known, -, h⟩
  · exact absurd h lift_ne_fault
  split at h
  case isTrue =>
    split at h
    case isTrue =>
      cases h
      exact .inr ⟨_, _, _, rfl⟩
    case isFalse => cases h
  case isFalse => split at h <;> cases h

variable [LawfulScalar α]

theorem linkValues_eq_ok :
    search.linkValues id time = .ok (travelTime, linkCost) ↔
      search.Charges id time travelTime linkCost := by
  have hzero : Scalar.IsNumber (0 : α) := Scalar.isNumber_of_isFinite LawfulScalar.isFinite_zero
  constructor
  · intro h
    obtain ⟨htime, hcost⟩ := ok_linkValues search id time _ h
    obtain ⟨⟨hfinite, hnegative⟩, hfinite', hnegative'⟩ := checked_linkValues search id time _ h
    exact ⟨htime, hcost, hfinite, hfinite',
      Scalar.le_of_not_lt (Scalar.isNumber_of_isFinite hfinite) hzero hnegative,
      Scalar.le_of_not_lt (Scalar.isNumber_of_isFinite hfinite') hzero hnegative'⟩
  · intro h
    exact linkValues_eq h.travelTime_eq h.cost_eq h.isFinite_travelTime
      (Scalar.not_lt_of_le h.zero_le_travelTime) h.isFinite_cost
      (Scalar.not_lt_of_le h.zero_le_cost)

/-- The values of a link fail by the fault of a value that one of the functions returns, and by one
of the cost only when the travel time can be used. -/
theorem linkValues_eq_error (h : search.linkValues id time = .error (.fault error)) :
    ∃ kind value, (search.quantity kind).value id time = .ok value ∧
      (kind = .cost → search.travelTime.IsUsableAt id time) ∧
      checkValue kind id time value = .error (.fault error) := by
  rcases bind_eq_error.mp h with h | ⟨travelTime, htime, h⟩
  · exact absurd h lift_ne_fault
  have htime := lift_eq_ok.mp htime
  rcases bind_eq_error.mp h with hfault | ⟨_, hchecked, h⟩
  · exact ⟨.travelTime, travelTime, htime, nofun, hfault⟩
  obtain ⟨hfinite, hnegative⟩ := ok_checkValue _ _ _ _ _ hchecked
  rcases bind_eq_error.mp h with h | ⟨linkCost, hcost, h⟩
  · exact absurd h lift_ne_fault
  rcases bind_eq_error.mp h with hfault | ⟨_, -, h⟩
  · refine ⟨.cost, linkCost, lift_eq_ok.mp hcost, fun _ => ⟨travelTime, htime, hfinite, ?_⟩, hfault⟩
    exact Scalar.le_of_not_lt (Scalar.isNumber_of_isFinite hfinite)
      (Scalar.isNumber_of_isFinite LawfulScalar.isFinite_zero) hnegative
  · cases h

/-- A link that offers a label leads on from every path to the label that it was offered for. -/
theorem Offers.walks {ids : List LinkId} (hoffer : search.Offers direction near id link label)
    (h : search.Walks direction root rootTime ids (direction.nearEnd link) near.cost near.time) :
    search.Walks direction root rootTime (ids ++ [id]) (direction.farEnd link) label.cost
      label.time := by
  obtain ⟨hlink, travelTime, linkCost, hvalues, rfl⟩ := hoffer
  exact .follow h hlink (linkValues_eq_ok.mp hvalues)

/-! ## What every step preserves -/

/-- Paths lead to all labels, and the links of settled nodes are usable unless they are still to be
followed. -/
structure Charted (search : RoadSearch α) (direction : Direction) (root : NodeId)
    (rootTime maxCost : α) (moment : SearchMoment α) : Prop
    extends InOrder search direction moment where
  walked : ∀ node label, moment.state.labelAt node = some label →
    ∃ ids, search.Walks direction root rootTime ids node label.cost label.time
  current : moment.pending ≠ [] → ∃ node followed, Current search direction maxCost moment node
    followed
  charged : ∀ id link near, search.network.links[id.index]? = some link →
    moment.state.labelAt (direction.nearEnd link) = some near → near.settled = true →
    id ∉ moment.pending → ∃ travelTime linkCost, search.Charges id near.time travelTime linkCost

namespace Charted

theorem start (hroot : search.network.contains root = true) (direction : Direction) (maxCost : α) :
    Charted search direction root rootTime maxCost (search.begin root rootTime) := by
  refine { InOrder.start hroot direction with
    walked := fun node label hlabel => ?_
    current := fun h => absurd rfl h
    charged := fun id link near _ hnear hsettled => ?_ }
  · obtain ⟨rfl, rfl⟩ := (labelAt_start hroot).mp hlabel
    exact ⟨[], .start⟩
  · obtain ⟨-, rfl⟩ := (labelAt_start hroot).mp hnear
    cases hsettled

theorem settle {taken : Nat} {entry : Frontier.Entry α} {rest : Frontier α}
    (h : Charted search direction root rootTime maxCost ⟨state, taken, near, []⟩)
    (hlinks : search.network.linkCount < 2 ^ 32)
    (hpop : state.frontier.pop? = some (entry, rest)) (hlive : Live state entry label)
    (hbound : ¬ maxCost < entry.cost) :
    Charted search direction root rootTime maxCost
      ⟨SearchState.close { state with frontier := rest } entry.node label, taken + 1, label,
        search.network.leaving direction entry.node⟩ := by
  have hlt := SearchState.lt_of_labelAt hlive.known
  refine { h.toInOrder.close hpop hlive (Nat.le_refl _) with
    walked := fun n known hknown => ?walked
    current := fun _ => ⟨entry.node, [], rfl, SearchState.labelAt_close_self hlt, rfl, ?within⟩
    charged := fun id link known hlink hknown hsettled hpending => ?charged }
  case walked =>
    obtain ⟨rfl, rfl⟩ | ⟨-, hknown⟩ := SearchState.labelAt_close_cases hlt hknown
    · have hwalked := h.walked _ _ hlive.known
      exact hwalked
    · exact h.walked _ _ hknown
  case within =>
    exact fun hlt => hbound (Scalar.lt_of_lt_of_le hlt (h.toQueued.cost_le hpop hlive))
  case charged =>
    obtain ⟨hnode, -⟩ | ⟨-, hknown⟩ := SearchState.labelAt_close_cases hlt hknown
    · exact absurd ((Network.mem_leaving hlinks).mpr ⟨link, hlink, hnode⟩) hpending
    · exact h.charged id link known hlink hknown hsettled List.not_mem_nil

theorem follow {after : SearchState α} {taken : Nat} {pending : List LinkId}
    (h : Charted search direction root rootTime maxCost ⟨state, taken, near, id :: pending⟩)
    (hlinks : search.network.linkCount < 2 ^ 32)
    (hrelax : search.relax direction near state id = .ok after) :
    Charted search direction root rootTime maxCost ⟨after, taken, near, pending⟩ := by
  obtain ⟨node, followed, hcurrent⟩ := h.current (List.cons_ne_nil id pending)
  have hrelaxed := ok_relax search direction near state id after hrelax
  -- The settled nodes were settled before, and keep their labels.
  have hkept : ∀ n known, after.labelAt n = some known → known.settled = true →
      state.labelAt n = some known := by
    cases hrelaxed with
    | refused => exact fun _ _ hknown _ => hknown
    | taken hoffer hfar =>
      exact fun _ _ => SearchState.labelAt_of_lower hfar hoffer.unsettled
  have hoffers : ∃ link label, search.Offers direction near id link label := by
    cases hrelaxed with
    | refused hoffer => exact ⟨_, _, hoffer⟩
    | taken hoffer => exact ⟨_, _, hoffer⟩
  obtain ⟨link, label, hoffer⟩ := hoffers
  have hnode := hcurrent.nearEnd_eq hlinks rfl hoffer.found
  refine { h.toInOrder.follow hrelax with
    walked := fun n known hknown => ?walked
    current := fun _ => ⟨node, followed ++ [id], (settled_relax hrelax) ▸ hcurrent.last,
      hrelaxed.labelAt_eq hcurrent.known rfl, ?links, hcurrent.within⟩
    charged := fun other link' known hlink hknown hsettled hpending => ?charged }
  case walked =>
    cases hrelaxed with
    | refused => exact h.walked n known hknown
    | taken hoffer' hfar =>
      obtain ⟨rfl, rfl⟩ | ⟨-, hknown⟩ := SearchState.labelAt_lower_cases hfar hknown
      · cases hoffer.found.symm.trans hoffer'.found
        obtain ⟨ids, hids⟩ := h.walked _ _ hcurrent.known
        exact ⟨ids ++ [id], hoffer'.walks (hnode ▸ hids)⟩
      · exact h.walked n known hknown
  case links =>
    rw [hcurrent.links, List.append_assoc]
    rfl
  case charged =>
    have hknown := hkept _ _ hknown hsettled
    by_cases hother : other = id
    · subst hother
      cases hoffer.found.symm.trans hlink
      cases (hnode ▸ hcurrent.known : state.labelAt (direction.nearEnd link) = _).symm.trans hknown
      obtain ⟨-, travelTime, linkCost, hvalues, -⟩ := hoffer
      exact ⟨travelTime, linkCost, linkValues_eq_ok.mp hvalues⟩
    · exact h.charged other link' known hlink hknown hsettled
        (List.not_mem_cons_of_ne_of_not_mem hother hpending)

theorem step (h : Charted search direction root rootTime maxCost moment)
    (hlinks : search.network.linkCount < 2 ^ 32)
    (hstep : search.Step direction maxCost none moment next) :
    Charted search direction root rootTime maxCost next := by
  cases hstep with
  | skip _ hpop _ =>
    exact { h.toInOrder.skip hpop with
      walked := h.walked, current := fun h => absurd rfl h, charged := h.charged }
  | settle _ hpop hlive hbound => exact h.settle hlinks hpop hlive hbound
  | follow hrelax => exact h.follow hlinks hrelax

theorem of_reaches (hroot : search.network.contains root = true)
    (hlinks : search.network.linkCount < 2 ^ 32)
    (h : search.Reaches root rootTime direction maxCost none moment) :
    Charted search direction root rootTime maxCost moment := by
  induction h with
  | refl => exact start hroot direction maxCost
  | tail _ hstep ih => exact ih.step hlinks hstep

/-- A value that cannot be used is met at the time of the node that was settled last. -/
theorem meets {taken : Nat} {pending : List LinkId}
    (h : Charted search direction root rootTime maxCost ⟨state, taken, near, id :: pending⟩)
    (hlinks : search.network.linkCount < 2 ^ 32) (hmax : Scalar.IsNumber maxCost)
    (hlink : search.network.links[id.index]? = some link)
    (hreturned : (search.quantity kind).value id near.time = .ok value)
    (htravelTime : kind = .cost → search.travelTime.IsUsableAt id near.time) :
    search.Meets direction root rootTime maxCost kind id near.time value := by
  obtain ⟨node, followed, hcurrent⟩ := h.current (List.cons_ne_nil id pending)
  obtain ⟨ids, hids⟩ := h.walked _ _ hcurrent.known
  obtain rfl := hcurrent.nearEnd_eq hlinks rfl hlink
  have hnumber : Scalar.IsNumber near.cost := (h.dearest (List.cons_ne_nil id pending)).1
  exact ⟨hreturned, htravelTime, link, ids, near.cost, hlink, hids,
    Scalar.le_of_not_lt hmax hnumber hcurrent.within⟩

end Charted

/-! ## The whole search -/

/-- A search that succeeds ends where no link is still to be followed. -/
theorem exists_last (hsound : search.network.Sound) {tree : PathTree α}
    (htree : search.run root rootTime direction maxCost none = .ok tree) :
    ∃ last, search.Reaches root rootTime direction maxCost none last ∧ last.pending = [] ∧
      last.state.tree root direction rootTime = tree := by
  obtain ⟨last, entries, outcome, hreaches, hends, hrun⟩ :=
    run_ends hsound (contains_of_run htree) rootTime direction maxCost none
  rw [hrun] at htree
  cases hends with
  | found htarget => cases htarget
  | exhausted =>
    cases htree
    exact ⟨_, hreaches, rfl, rfl⟩
  | bounded =>
    cases htree
    exact ⟨_, hreaches, rfl, rfl⟩
  | failed => cases htree

/-- A search that complains of a value has met it. -/
theorem exists_meeting (hsound : search.network.Sound)
    (hlinks : search.network.linkCount < 2 ^ 32) (hmax : Scalar.IsNumber maxCost)
    (h : search.run root rootTime direction maxCost none = .error (.fault error)) :
    (∃ node, error = .unknownNode node) ∨
    (∃ node id settled candidate, error = .lateDecrease node id settled candidate) ∨
    ∃ kind id time value, checkValue kind id time value = .error (.fault error) ∧
      search.Meets direction root rootTime maxCost kind id time value := by
  by_cases hroot : search.network.contains root = true
  · obtain ⟨last, entries, outcome, hreaches, hends, hrun⟩ :=
      run_ends hsound hroot rootTime direction maxCost none
    rw [hrun] at h
    cases hends with
    | found => cases h
    | exhausted => cases h
    | bounded => cases h
    | @failed state taken near id pending e hrelax =>
      cases h
      rcases relax_eq_error hrelax with ⟨link, hlink, hvalues⟩ | ⟨node, settled, candidate, rfl⟩
      · obtain ⟨kind, value, hreturned, htravelTime, hfault⟩ := linkValues_eq_error hvalues
        exact .inr (.inr ⟨kind, id, near.time, value, hfault,
          (Charted.of_reaches hroot hlinks hreaches).meets hlinks hmax hlink hreturned htravelTime⟩)
      · exact .inr (.inl ⟨node, id, settled, candidate, rfl⟩)
  · rw [run, if_neg hroot] at h
    cases h
    exact .inl ⟨root, rfl⟩

/-- When a search succeeds, both functions are usable on every link that leaves a settled node, at
the time of its label. When it complains of a value, that function returns this value on this link
at this time, the value is as the complaint says, and a path of usable links within the bound comes
to the near end of the link at this time. -/
theorem run_faults (search : RoadSearch α) {draft : NetworkDraft α}
    (hbuild : draft.build = .ok search.network) (hlinks : draft.links.size < 2 ^ 32 - 1)
    (root : NodeId) (rootTime : α) (direction : Direction) {maxCost : α}
    (hmax : Scalar.IsNumber maxCost) :
    (∀ tree, search.run root rootTime direction maxCost none = .ok tree →
      ∀ node label, tree.label? node = some label →
      ∀ id link, search.network.links[id.index]? = some link → direction.nearEnd link = node →
      ∀ kind, (search.quantity kind).IsUsableAt id label.time) ∧
    (∀ kind id time value, search.run root rootTime direction maxCost none =
        .error (.fault (.notFinite kind id time value)) →
      Scalar.isFinite value = false ∧
        search.Meets direction root rootTime maxCost kind id time value) ∧
    (∀ kind id time value, search.run root rootTime direction maxCost none =
        .error (.fault (.negative kind id time value)) →
      Scalar.isFinite value = true ∧ value < 0 ∧
        search.Meets direction root rootTime maxCost kind id time value) := by
  obtain ⟨-, hsound⟩ := NetworkDraft.sound_build hbuild
  have hcount : search.network.linkCount < 2 ^ 32 :=
    NetworkDraft.linkCount_lt_of_build hbuild hlinks
  refine ⟨fun tree htree node label hlabel id link hlink hnode kind => ?_,
    fun kind id time value herror => ?_, fun kind id time value herror => ?_⟩
  · obtain ⟨last, hreaches, hpending, rfl⟩ := exists_last hsound htree
    obtain ⟨hknown, hsettled⟩ := SearchState.label?_tree.mp hlabel
    obtain ⟨travelTime, linkCost, hcharges⟩ :=
      (Charted.of_reaches (contains_of_run htree) hcount hreaches).charged id link label hlink
        (hnode ▸ hknown) hsettled (hpending ▸ List.not_mem_nil)
    exact hcharges.isUsableAt kind
  · obtain ⟨_, ⟨⟩⟩ | ⟨_, _, _, _, ⟨⟩⟩ | ⟨_, _, _, _, hfault, hmeets⟩ :=
      exists_meeting hsound hcount hmax herror
    obtain ⟨hfinite, ⟨⟩⟩ | ⟨-, -, ⟨⟩⟩ := checkValue_eq_error hfault
    exact ⟨hfinite, hmeets⟩
  · obtain ⟨_, ⟨⟩⟩ | ⟨_, _, _, _, ⟨⟩⟩ | ⟨_, _, _, _, hfault, hmeets⟩ :=
      exists_meeting hsound hcount hmax herror
    obtain ⟨-, ⟨⟩⟩ | ⟨hfinite, hnegative, ⟨⟩⟩ := checkValue_eq_error hfault
    exact ⟨hfinite, hnegative, hmeets⟩

end RoadSearch

/-! ## An example -/

/-- A cost of 50 on every link, and a refund on the second one from 8:00:40 on. -/
def refund : LinkFunction Float where
  value id time := .ok (if id = ⟨1⟩ ∧ 28840 ≤ time then -1 else 50)
  timeInvariant := false

def refundSearch : RoadSearch Float where
  network := crossings.layOut
  travelTime := .freeFlow crossings.layOut
  cost := refund

deriving instance DecidableEq for RoadError

/-- Who leaves the first crossing at 8:00 comes to the second link after 50 seconds, when its cost
is negative, and who leaves 100 seconds earlier comes to it in time. -/
theorem faults_of_refund : ∃ tree label,
    crossings.build = .ok refundSearch.network ∧ crossings.links.size < 2 ^ 32 - 1 ∧
      Scalar.IsNumber (200 : Float) ∧ refundSearch.run ⟨0⟩ 28700 .forward 200 none = .ok tree ∧
      tree.label? ⟨1⟩ = some label ∧ refund.IsUsableAt ⟨1⟩ label.time ∧
      refundSearch.run ⟨0⟩ 28800 .forward 200 none =
        .error (.fault (.negative .cost ⟨1⟩ 28850 (-1))) ∧
      refundSearch.Meets .forward ⟨0⟩ 28800 200 .cost ⟨1⟩ 28850 (-1) := by
  have hmax : Scalar.IsNumber (200 : Float) := rfl
  have hfound : ((refundSearch.run ⟨0⟩ 28700 .forward 200 none).toOption.any fun tree =>
      decide ((tree.label? ⟨1⟩).isSome = true)) = true := by decide +kernel
  obtain ⟨tree, htree, hreached⟩ := exists_of_any hfound
  obtain ⟨label, hlabel⟩ := Option.isSome_iff_exists.mp hreached
  have hfailed : refundSearch.run ⟨0⟩ 28800 .forward 200 none =
      .error (.fault (.negative .cost ⟨1⟩ 28850 (-1))) := eq_error_of_fault? (by decide +kernel)
  obtain ⟨hsucceeds, -, -⟩ := RoadSearch.run_faults refundSearch build_crossings (by decide) ⟨0⟩
    28700 .forward hmax
  obtain ⟨-, -, hnegative⟩ := RoadSearch.run_faults refundSearch build_crossings (by decide) ⟨0⟩
    28800 .forward hmax
  exact ⟨tree, label, build_crossings, by decide, hmax, htree, hlabel,
    hsucceeds tree htree ⟨1⟩ label hlabel ⟨1⟩ _ rfl rfl .cost, hfailed,
    (hnegative _ _ _ _ hfailed).2.2⟩

end ZoneSkims
