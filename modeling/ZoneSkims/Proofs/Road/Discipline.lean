import Mathlib.Logic.Relation
import ZoneSkims.Proofs.Breach
import ZoneSkims.Proofs.Road.EarlyStop
import ZoneSkims.Proofs.Road.LeastCost

/-!
# The order in which nodes are settled

A search is followed step by step: it takes an entry from the frontier and leaves it out or settles
its node, or it follows one link of the node that was settled last. Whatever the link functions say
at whatever time, nodes are settled in the order of their costs and once each, no link offers a
settled node less than its cost, and every entry that is taken is that of the root or of a link. Of
addition, only `a ≤ a + c` is used, for `c` not below 0.

* `RoadSearch.Step`, `RoadSearch.Ends`: the steps of a search, and how it ends.
* `PathTree.SettledInOrder`: every reached node was settled once, and none after a dearer one.
* `RoadSearch.InOrder`: what every step preserves.
* `RoadSearch.exists_end`: a search is a sequence of such steps, and comes to an end.
* `RoadSearch.run_in_order`: the main result.
-/

namespace ZoneSkims

/-- A search between two steps. -/
structure SearchMoment (α : Type) where
  state : SearchState α
  /-- The number of entries that were taken from the frontier. -/
  taken : Nat
  /-- The label of the node that was settled last. -/
  near : Label α
  /-- The links of that node that are still to be followed. -/
  pending : List LinkId

variable {α : Type}

/-- Every reached node was settled once, and none after a dearer one. -/
structure PathTree.SettledInOrder [Scalar α] (tree : PathTree α) : Prop where
  nodup : tree.settled.Nodup
  mem_settled : ∀ node, node ∈ tree.settled ↔ (tree.cost? node).isSome = true
  ascending : tree.settled.Pairwise fun later earlier => ∃ cost cost',
    tree.cost? later = some cost ∧ tree.cost? earlier = some cost' ∧ cost' ≤ cost

namespace RoadSearch

variable [Scalar α]

/-! ## Steps -/

/-- No target was settled yet. -/
def Goes (target : Option NodeId) (state : SearchState α) : Prop :=
  ∀ node, target = some node → node ∉ state.settled

/-- One step of a search. No link of a target is followed. -/
inductive Step (search : RoadSearch α) (direction : Direction) (maxCost : α)
    (target : Option NodeId) : SearchMoment α → SearchMoment α → Prop
  | skip {state : SearchState α} {taken : Nat} {near : Label α} {entry : Frontier.Entry α}
    {rest : Frontier α} : Goes target state → state.frontier.pop? = some (entry, rest) →
    Stale state entry →
      Step search direction maxCost target ⟨state, taken, near, []⟩
        ⟨{ state with frontier := rest }, taken + 1, near, []⟩
  | settle {state : SearchState α} {taken : Nat} {near label : Label α}
    {entry : Frontier.Entry α} {rest : Frontier α} : Goes target state →
    state.frontier.pop? = some (entry, rest) → Live state entry label → ¬ maxCost < entry.cost →
      Step search direction maxCost target ⟨state, taken, near, []⟩
        ⟨SearchState.close { state with frontier := rest } entry.node label, taken + 1, label,
          if target = some entry.node then [] else search.network.leaving direction entry.node⟩
  | follow {state after : SearchState α} {taken : Nat} {near : Label α} {id : LinkId}
    {pending : List LinkId} : search.relax direction near state id = .ok after →
      Step search direction maxCost target ⟨state, taken, near, id :: pending⟩
        ⟨after, taken, near, pending⟩

/-- How a search ends, and after how many entries: the target was settled, the frontier is empty,
the next entry is beyond the bound, or a link cannot be followed. -/
inductive Ends (search : RoadSearch α) (direction : Direction) (maxCost : α)
    (target : Option NodeId) :
    SearchMoment α → Nat → Outcome (RoadError α) (SearchState α) → Prop
  | found {state : SearchState α} {taken : Nat} {near : Label α} {node : NodeId} :
    target = some node → node ∈ state.settled →
      Ends search direction maxCost target ⟨state, taken, near, []⟩ taken (.ok state)
  | exhausted {state : SearchState α} {taken : Nat} {near : Label α} :
    state.frontier.pop? = none →
      Ends search direction maxCost target ⟨state, taken, near, []⟩ taken (.ok state)
  | bounded {state : SearchState α} {taken : Nat} {near label : Label α}
    {entry : Frontier.Entry α} {rest : Frontier α} : Goes target state →
    state.frontier.pop? = some (entry, rest) → Live state entry label → maxCost < entry.cost →
      Ends search direction maxCost target ⟨state, taken, near, []⟩ (taken + 1)
        (.ok { state with frontier := rest })
  | failed {state : SearchState α} {taken : Nat} {near : Label α} {id : LinkId}
    {pending : List LinkId} {e : Failure (RoadError α)} :
    search.relax direction near state id = .error e →
      Ends search direction maxCost target ⟨state, taken, near, id :: pending⟩ taken (.error e)

/-- The moment at which a search starts. -/
def begin (search : RoadSearch α) (root : NodeId) (rootTime : α) : SearchMoment α :=
  ⟨search.start root rootTime, 0, rootLabel rootTime, []⟩

/-- The moments that a search comes to. -/
def Reaches (search : RoadSearch α) (root : NodeId) (rootTime : α) (direction : Direction)
    (maxCost : α) (target : Option NodeId) (moment : SearchMoment α) : Prop :=
  Relation.ReflTransGen (search.Step direction maxCost target) (search.begin root rootTime) moment

variable {search : RoadSearch α} {direction : Direction} {maxCost rootTime : α} {root node : NodeId}
  {target : Option NodeId} {state after : SearchState α} {near label : Label α} {id : LinkId}
  {link : Link α} {entry : Frontier.Entry α} {rest : Frontier α} {taken : Nat}
  {pending : List LinkId} {moment next : SearchMoment α}

/-! ## Late offers -/

/-- A calculation that has no faults of its own fails with none. -/
theorem lift_ne_fault {ε β : Type} {x : Checked β} {error : ε} :
    (liftM x : Outcome ε β) ≠ .error (.fault error) := by
  cases x <;> exact nofun

theorem linkValues_ne_lateDecrease {time : α} {late : LinkId} {settled candidate : α} :
    search.linkValues id time ≠ .error (.fault (.lateDecrease node late settled candidate)) := by
  have hcheck : ∀ (kind : LinkQuantity) (value : α), checkValue kind id time value ≠
      .error (.fault (.lateDecrease node late settled candidate)) := by
    intro kind value
    unfold checkValue
    split
    · exact nofun
    · split <;> exact nofun
  intro h
  rcases bind_eq_error.mp h with h | ⟨travelTime, -, h⟩
  · exact lift_ne_fault h
  rcases bind_eq_error.mp h with h | ⟨_, -, h⟩
  · exact hcheck _ _ h
  rcases bind_eq_error.mp h with h | ⟨linkCost, -, h⟩
  · exact lift_ne_fault h
  rcases bind_eq_error.mp h with h | ⟨_, -, h⟩
  · exact hcheck _ _ h
  · cases h

/-- A search complains of a late offer only when a link offers a settled node less than its cost. -/
theorem exists_late_offer {late : LinkId} {settled candidate : α}
    (h : search.relax direction near state id =
      .error (.fault (.lateDecrease node late settled candidate))) :
    ∃ link offer known, search.Offers direction near id link offer ∧
      state.labelAt (direction.farEnd link) = some known ∧ known.settled = true ∧
        offer.cost < known.cost := by
  unfold relax at h
  rcases bind_eq_error.mp h with h | ⟨link, hlink, h⟩
  · exact absurd h lift_ne_fault
  rcases bind_eq_error.mp h with h | ⟨⟨travelTime, linkCost⟩, hvalues, h⟩
  · exact absurd h linkValues_ne_lateDecrease
  rcases bind_eq_error.mp h with h | ⟨known, hknown, h⟩
  · exact absurd h lift_ne_fault
  split at h
  case isFalse => split at h <;> cases h
  case isTrue hsettled =>
    split at h
    case isFalse => cases h
    case isTrue hcost =>
      obtain ⟨label, rfl, hsettled⟩ := (Option.any_eq_true _ _).mp hsettled
      refine ⟨link, near.along direction id link travelTime linkCost, label,
        ⟨fetch_eq_ok.mp (lift_eq_ok.mp hlink), _, _, hvalues, rfl⟩, ?_, hsettled, hcost⟩
      rw [SearchState.labelAt, fetch_eq_ok.mp (lift_eq_ok.mp hknown)]
      rfl

/-- A settled node keeps its label. -/
theorem Step.labelAt_eq (hstep : search.Step direction maxCost target moment next)
    (hlabel : moment.state.labelAt node = some label) (hsettled : label.settled = true) :
    next.state.labelAt node = some label := by
  cases hstep with
  | skip => exact hlabel
  | @settle state taken near opened entry rest _ _ hlive =>
    refine (SearchState.labelAt_close_of_ne ?_).trans hlabel
    rintro rfl
    rw [hlive.isOpen label hlabel] at hsettled
    cases hsettled
  | follow hrelax => exact (ok_relax _ _ _ _ _ _ hrelax).labelAt_eq hlabel hsettled

/-! ## What every step preserves -/

/-- Settled nodes lie before the frontier, in the order of their costs, and there is an entry or a
link that was not followed for each entry that can still be taken. -/
structure InOrder (search : RoadSearch α) (direction : Direction) (moment : SearchMoment α) :
    Prop extends moment.state.Consistent search.network, Queued moment.state where
  behind : ∀ node label, moment.state.labelAt node = some label → label.settled = true →
    ∀ entry ∈ moment.state.frontier.toList, label.cost ≤ entry.cost
  ascending : moment.state.settled.Pairwise fun later earlier => ∀ label label',
    moment.state.labelAt later = some label → moment.state.labelAt earlier = some label' →
      label'.cost ≤ label.cost
  /-- While links are followed, the node that was settled last is the dearest. -/
  dearest : moment.pending ≠ [] → Scalar.IsNumber moment.near.cost ∧ ∀ node label,
    moment.state.labelAt node = some label → label.settled = true → label.cost ≤ moment.near.cost
  budget : moment.taken + moment.state.frontier.toList.length +
    search.network.openLinks direction moment.state.settled + moment.pending.length ≤
      search.network.linkCount + 1

namespace InOrder

theorem settledInOrder (h : InOrder search direction moment) (root : NodeId) (rootTime : α) :
    (moment.state.tree root direction rootTime).SettledInOrder := by
  refine ⟨h.nodup, fun node => ?_,
    h.ascending.imp_of_mem fun {later earlier} hlater hearlier hle => ?_⟩
  · refine (h.mem_settled node).trans ⟨?_, fun hsome => ?_⟩
    · rintro ⟨label, hlabel, hsettled⟩
      exact Option.isSome_iff_exists.mpr
        ⟨label.cost, SearchState.cost?_tree.mpr ⟨label, hlabel, hsettled, rfl⟩⟩
    · obtain ⟨cost, hcost⟩ := Option.isSome_iff_exists.mp hsome
      obtain ⟨label, hlabel, hsettled, -⟩ := SearchState.cost?_tree.mp hcost
      exact ⟨label, hlabel, hsettled⟩
  · obtain ⟨label, hlabel, hsettled⟩ := (h.mem_settled later).mp hlater
    obtain ⟨label', hlabel', hsettled'⟩ := (h.mem_settled earlier).mp hearlier
    exact ⟨label.cost, label'.cost, SearchState.cost?_tree.mpr ⟨label, hlabel, hsettled, rfl⟩,
      SearchState.cost?_tree.mpr ⟨label', hlabel', hsettled', rfl⟩,
      hle label label' hlabel hlabel'⟩

theorem taken_le (h : InOrder search direction moment) :
    moment.taken ≤ search.network.linkCount + 1 := by
  have hbudget := h.budget
  omega

variable [LawfulScalar α]

theorem start (hroot : search.network.contains root = true) (direction : Direction) :
    InOrder search direction (search.begin root rootTime) := by
  refine { consistent_start hroot, queued_start hroot with
    behind := fun node label hlabel hsettled => ?_
    ascending := List.Pairwise.nil
    dearest := fun h => absurd rfl h
    budget := ?_ }
  · obtain ⟨-, rfl⟩ := (labelAt_start hroot).mp hlabel
    cases hsettled
  · show 0 + 1 + search.network.openLinks direction [] + 0 ≤ search.network.linkCount + 1
    have hlinks : search.network.openLinks direction [] ≤ search.network.linkCount :=
      List.countP_le_length
    omega

theorem skip (h : InOrder search direction ⟨state, taken, near, []⟩)
    (hpop : state.frontier.pop? = some (entry, rest)) :
    InOrder search direction ⟨{ state with frontier := rest }, taken + 1, near, []⟩ := by
  have hpopped := h.valid.pop hpop
  have hlength : state.frontier.toList.length = rest.toList.length + 1 := hpopped.perm.length_eq
  have hbudget := h.budget
  refine { h.toConsistent.withFrontier rest, h.toQueued.skip hpop with
    behind := fun node label hlabel hsettled other hother =>
      h.behind node label hlabel hsettled other (hpopped.mem_of_rest hother)
    ascending := h.ascending
    dearest := h.dearest
    budget := ?_ }
  dsimp only at hbudget ⊢
  omega

/-- A node that is settled is as dear as its entry, and no settled one is dearer. -/
theorem close (h : InOrder search direction ⟨state, taken, near, []⟩)
    (hpop : state.frontier.pop? = some (entry, rest)) (hlive : Live state entry label)
    (hpending : pending.length ≤ (search.network.leaving direction entry.node).length) :
    InOrder search direction
      ⟨SearchState.close { state with frontier := rest } entry.node label, taken + 1, label,
        pending⟩ := by
  have hpopped := h.valid.pop hpop
  have hlt := SearchState.lt_of_labelAt hlive.known
  have hle := h.toQueued.cost_le hpop hlive
  have hge := h.toQueued.le_cost hpop hlive
  have hnumber := h.isNumber _ _ hlive.known
  have hnew : entry.node ∉ state.settled := h.not_mem_settled hlive.isOpen
  have hdearest : ∀ n known, state.labelAt n = some known → known.settled = true →
      known.cost ≤ label.cost := fun n known hknown hsettled =>
    Scalar.le_trans (h.behind n known hknown hsettled entry hpopped.mem_top) hge
  refine { (h.toConsistent.withFrontier rest).close hlive.known hlive.isOpen,
      h.toQueued.close hpop hlive with
    behind := ?behind, ascending := ?ascending, dearest := fun _ => ⟨hnumber, ?dearest⟩,
    budget := ?budget }
  case behind =>
    intro n known hknown hsettled other hother
    have hother := hpopped.mem_of_rest hother
    obtain ⟨rfl, rfl⟩ | ⟨-, hknown⟩ := SearchState.labelAt_close_cases hlt hknown
    · exact Scalar.le_trans hle (h.toQueued.first_le hpop hother)
    · exact h.behind n known hknown hsettled other hother
  case ascending =>
    have hkept : ∀ n ∈ state.settled, n ≠ entry.node := by
      rintro n hn rfl
      exact hnew hn
    refine List.pairwise_cons.mpr ⟨fun n hn known known' hknown hknown' => ?_,
      h.ascending.imp_of_mem fun {n n'} hn hn' hle known known' hknown hknown' => ?_⟩
    · cases (SearchState.labelAt_close_self hlt).symm.trans hknown
      have hkept := (SearchState.labelAt_close_of_ne (hkept n hn)).symm.trans hknown'
      obtain ⟨found, hfound, hsettled⟩ := (h.mem_settled n).mp hn
      cases hkept.symm.trans hfound
      exact hdearest n _ hfound hsettled
    · exact hle known known' ((SearchState.labelAt_close_of_ne (hkept n hn)).symm.trans hknown)
        ((SearchState.labelAt_close_of_ne (hkept n' hn')).symm.trans hknown')
  case dearest =>
    intro n known hknown hsettled
    obtain ⟨rfl, rfl⟩ | ⟨-, hknown⟩ := SearchState.labelAt_close_cases hlt hknown
    · exact Scalar.le_refl hnumber
    · exact hdearest n known hknown hsettled
  case budget =>
    have hlength : state.frontier.toList.length = rest.toList.length + 1 := hpopped.perm.length_eq
    have hopen := search.network.openLinks_cons direction hnew
    have hbudget := h.budget
    dsimp only [List.length_nil, SearchState.close] at hbudget ⊢
    omega

/-- What a link offers is not cheaper than the node that was settled last. -/
theorem le_offer (h : InOrder search direction moment) (hpending : moment.pending ≠ [])
    (hoffer : search.Offers direction moment.near id link label) :
    moment.near.cost ≤ label.cost := by
  obtain ⟨linkCost, hfinite, hnegative, hcost⟩ := hoffer.exists_cost
  rw [hcost]
  exact LawfulScalar.le_add (Scalar.isNumber_add (h.dearest hpending).1 hfinite) hnegative

/-- No link offers a settled node less than its cost. -/
theorem not_offer_lt {known : Label α} (h : InOrder search direction moment)
    (hpending : moment.pending ≠ []) (hoffer : search.Offers direction moment.near id link label)
    (hknown : moment.state.labelAt node = some known) (hsettled : known.settled = true) :
    ¬ label.cost < known.cost :=
  Scalar.not_lt_of_le (Scalar.le_trans ((h.dearest hpending).2 node known hknown hsettled)
    (h.le_offer hpending hoffer))

theorem follow (h : InOrder search direction ⟨state, taken, near, id :: pending⟩)
    (hrelax : search.relax direction near state id = .ok after) :
    InOrder search direction ⟨after, taken, near, pending⟩ := by
  obtain ⟨hnumber, hdearest⟩ := h.dearest (List.cons_ne_nil id pending)
  have hbudget := h.budget
  have hrelaxed := ok_relax search direction near state id after hrelax
  have hqueued := h.toQueued.relax hnumber hrelaxed
  cases hrelaxed with
  | refused =>
    refine { h with dearest := fun _ => ⟨hnumber, hdearest⟩, budget := ?_ }
    dsimp only [List.length_cons] at hbudget ⊢
    omega
  | @taken link label hoffer hfar hopen hlower =>
    have hsame : ∀ n known, (state.lower (direction.farEnd link) label).labelAt n = some known →
        known.settled = true → state.labelAt n = some known := fun _ _ =>
      SearchState.labelAt_of_lower hfar hoffer.unsettled
    have hpush := Frontier.toList_push h.valid ⟨label.cost, direction.farEnd link⟩
    refine { h.toConsistent.lower hfar hopen hoffer.unsettled, hqueued with
      behind := ?behind, ascending := ?ascending, dearest := fun _ => ⟨hnumber, ?dearest⟩,
      budget := ?budget }
    case behind =>
      intro n known hknown hsettled entry hentry
      have hknown := hsame n known hknown hsettled
      rcases List.mem_cons.mp (hpush.mem_iff.mp hentry) with rfl | hentry
      · exact Scalar.le_trans (hdearest n known hknown hsettled)
          (h.le_offer (List.cons_ne_nil id pending) hoffer)
      · exact h.behind n known hknown hsettled entry hentry
    case ascending =>
      have hother : ∀ n ∈ state.settled, n ≠ direction.farEnd link := by
        rintro n hn rfl
        exact h.not_mem_settled hopen hn
      refine h.ascending.imp_of_mem fun {n n'} hn hn' hle known known' hknown hknown' => ?_
      exact hle known known' ((SearchState.labelAt_lower_of_ne (hother n hn)).symm.trans hknown)
        ((SearchState.labelAt_lower_of_ne (hother n' hn')).symm.trans hknown')
    case dearest =>
      exact fun n known hknown hsettled =>
        hdearest n known (hsame n known hknown hsettled) hsettled
    case budget =>
      have hlength : (state.frontier.push ⟨label.cost, direction.farEnd link⟩).toList.length =
          state.frontier.toList.length + 1 := hpush.length_eq
      dsimp only [List.length_cons, SearchState.lower] at hbudget ⊢
      omega

theorem step (h : InOrder search direction moment)
    (hstep : search.Step direction maxCost target moment next) : InOrder search direction next := by
  cases hstep with
  | skip _ hpop _ => exact h.skip hpop
  | @settle state taken near label entry rest _ hpop hlive _ =>
    refine h.close hpop hlive ?_
    split
    · exact Nat.zero_le _
    · exact Nat.le_refl _
  | follow hrelax => exact h.follow hrelax

theorem steps (h : InOrder search direction moment)
    (hsteps : Relation.ReflTransGen (search.Step direction maxCost target) moment next) :
    InOrder search direction next := by
  induction hsteps with
  | refl => exact h
  | tail _ hstep ih => exact ih.step hstep

/-- No more entries are taken than there are links, and one for the root. -/
theorem entries_le (h : InOrder search direction moment) {entries : Nat}
    {outcome : Outcome (RoadError α) (SearchState α)}
    (hends : search.Ends direction maxCost target moment entries outcome) :
    entries ≤ search.network.linkCount + 1 := by
  have hbudget := h.budget
  cases hends with
  | found => dsimp only at hbudget; omega
  | exhausted => dsimp only at hbudget; omega
  | failed => dsimp only at hbudget; omega
  | @bounded state taken near label entry rest _ hpop =>
    have hlength : state.frontier.toList.length = rest.toList.length + 1 :=
      (h.valid.pop hpop).perm.length_eq
    dsimp only at hbudget
    omega

end InOrder

/-! ## The whole search -/

theorem settled_relax (h : search.relax direction near state id = .ok after) :
    after.settled = state.settled := by
  cases ok_relax search direction near state id after h with
  | refused => rfl
  | taken => rfl

/-- The links of a node are followed one by one, until one of them cannot be followed. -/
theorem follow_all (search : RoadSearch α) (direction : Direction) (maxCost : α)
    (target : Option NodeId) (taken : Nat) (near : Label α) (pending : List LinkId) :
    ∀ state : SearchState α,
      (∃ after, pending.foldlM (search.relax direction near) state = .ok after ∧
        after.settled = state.settled ∧
        Relation.ReflTransGen (search.Step direction maxCost target)
          ⟨state, taken, near, pending⟩ ⟨after, taken, near, []⟩) ∨
      ∃ e last, pending.foldlM (search.relax direction near) state = .error e ∧
        Relation.ReflTransGen (search.Step direction maxCost target)
          ⟨state, taken, near, pending⟩ last ∧
        search.Ends direction maxCost target last taken (.error e) := by
  induction pending with
  | nil => exact fun state => .inl ⟨state, rfl, rfl, .refl⟩
  | cons id pending ih =>
    intro state
    rw [List.foldlM_cons]
    cases hrelax : search.relax direction near state id with
    | error e => exact .inr ⟨e, _, rfl, .refl, .failed hrelax⟩
    | ok after =>
      rcases ih after with ⟨final, hfold, hsettled, hsteps⟩ | ⟨e, last, hfold, hsteps, hends⟩
      · exact .inl ⟨final, hfold, hsettled.trans (settled_relax hrelax),
          .head (.follow hrelax) hsteps⟩
      · exact .inr ⟨e, last, hfold, .head (.follow hrelax) hsteps, hends⟩

variable [LawfulScalar α]

variable (maxCost) in
/-- A search that may take as many entries as are left is a sequence of steps that comes to an
end. -/
theorem exists_end (hsound : search.network.Sound) (entries : Nat) :
    ∀ (state : SearchState α) (taken : Nat) (near : Label α), Goes target state →
      InOrder search direction ⟨state, taken, near, []⟩ →
      search.network.linkCount + 1 ≤ taken + entries →
      ∃ last taken', Relation.ReflTransGen (search.Step direction maxCost target)
        ⟨state, taken, near, []⟩ last ∧ search.Ends direction maxCost target last taken'
          (search.explore direction maxCost target entries state) := by
  induction entries with
  | zero =>
    intro state taken near _ h hleft
    have hbudget := h.budget
    have hempty : state.frontier.toList.length = 0 := by
      dsimp only at hbudget
      omega
    exact ⟨_, _, .refl,
      .exhausted (Frontier.pop?_eq_none.mpr (List.eq_nil_of_length_eq_zero hempty))⟩
  | succ entries ih =>
    intro state taken near hgoes h hleft
    cases hpop : state.frontier.pop? with
    | none =>
      rw [explore_done hpop]
      exact ⟨_, _, .refl, .exhausted hpop⟩
    | some popped =>
      obtain ⟨entry, rest⟩ := popped
      have hleft : search.network.linkCount + 1 ≤ taken + 1 + entries := by omega
      obtain hstale | ⟨label, hlive⟩ := stale_or_live state entry
      · rw [explore_skip hpop hstale]
        obtain ⟨last, taken', hsteps, hends⟩ :=
          ih { state with frontier := rest } (taken + 1) near hgoes (h.skip hpop) hleft
        exact ⟨last, taken', .head (.skip hgoes hpop hstale) hsteps, hends⟩
      by_cases hbound : maxCost < entry.cost
      · rw [explore_stop hpop hlive hbound]
        exact ⟨_, _, .refl, .bounded hgoes hpop hlive hbound⟩
      have hnode : search.network.contains entry.node = true :=
        decide_eq_true (h.size ▸ SearchState.lt_of_labelAt hlive.known)
      have hsettle : search.Step direction maxCost target ⟨state, taken, near, []⟩
          ⟨SearchState.close { state with frontier := rest } entry.node label, taken + 1, label,
            if target = some entry.node then [] else search.network.leaving direction entry.node⟩ :=
        .settle hgoes hpop hlive hbound
      rw [explore_settle hpop hlive hbound, settle_eq hsound hnode]
      by_cases htarget : target = some entry.node
      · rw [if_pos htarget] at hsettle ⊢
        simp only [if_pos htarget]
        exact ⟨_, _, .single hsettle, .found htarget List.mem_cons_self⟩
      rw [if_neg htarget] at hsettle ⊢
      simp only [if_neg htarget]
      rcases follow_all search direction maxCost target (taken + 1) label
        (search.network.leaving direction entry.node)
        (SearchState.close { state with frontier := rest } entry.node label) with
        ⟨after, hfold, hsettled, hsteps⟩ | ⟨e, last, hfold, hsteps, hends⟩
      · have hgoes : Goes target after := by
          intro node hnode hmem
          rcases List.mem_cons.mp (hsettled ▸ hmem) with rfl | hmem
          · exact htarget hnode
          · exact hgoes node hnode hmem
        obtain ⟨last, taken', hsteps', hends⟩ :=
          ih after (taken + 1) label hgoes ((h.step hsettle).steps hsteps) hleft
        rw [hfold]
        exact ⟨last, taken', .head hsettle (hsteps.trans hsteps'), hends⟩
      · rw [hfold]
        exact ⟨last, _, .head hsettle hsteps, hends⟩

theorem run_ends (hsound : search.network.Sound) (hroot : search.network.contains root = true)
    (rootTime : α) (direction : Direction) (maxCost : α) (target : Option NodeId) :
    ∃ last entries outcome, search.Reaches root rootTime direction maxCost target last ∧
      search.Ends direction maxCost target last entries outcome ∧
      search.run root rootTime direction maxCost target =
        SearchState.tree root direction rootTime <$> outcome := by
  have hgoes : Goes target (search.start root rootTime) := fun _ _ => List.not_mem_nil
  obtain ⟨last, entries, hsteps, hends⟩ := exists_end maxCost hsound
    (search.network.linkCount + 1) (search.start root rootTime) 0 (rootLabel rootTime) hgoes
    (InOrder.start hroot direction) (by omega)
  exact ⟨last, entries, _, hsteps, hends, run_eq hroot⟩

theorem run_ne_lateDecrease (hsound : search.network.Sound) {late : LinkId}
    {settled candidate : α} : search.run root rootTime direction maxCost target ≠
      .error (.fault (.lateDecrease node late settled candidate)) := by
  intro h
  by_cases hroot : search.network.contains root = true
  · obtain ⟨last, entries, outcome, hreaches, hends, hrun⟩ :=
      run_ends hsound hroot rootTime direction maxCost target
    rw [hrun] at h
    cases hends with
    | found => cases h
    | exhausted => cases h
    | bounded => cases h
    | failed hrelax =>
      cases h
      obtain ⟨link, offer, known, hoffer, hknown, hsettled, hlt⟩ := exists_late_offer hrelax
      exact ((InOrder.start hroot direction).steps hreaches).not_offer_lt (List.cons_ne_nil _ _)
        hoffer hknown hsettled hlt
  · rw [run, if_neg hroot] at h
    cases h

/-- Whatever its link functions, a search settles nodes once each, in the order of their costs, and
for good, no link offers a settled node less than its cost, and the search ends after one entry for
the root and at most one for each link. -/
theorem run_in_order (search : RoadSearch α) {draft : NetworkDraft α}
    (hbuild : draft.build = .ok search.network) (root : NodeId) (rootTime : α)
    (direction : Direction) (maxCost : α) (target : Option NodeId) :
    (∀ node late settled candidate, search.run root rootTime direction maxCost target ≠
      .error (.fault (.lateDecrease node late settled candidate))) ∧
    (search.network.contains root = true →
      (∀ moment, search.Reaches root rootTime direction maxCost target moment →
        (moment.state.tree root direction rootTime).SettledInOrder ∧
        (∀ next, search.Step direction maxCost target moment next → ∀ node label,
          moment.state.labelAt node = some label → label.settled = true →
            next.state.labelAt node = some label) ∧
        (∀ id ∈ moment.pending, ∀ link offer known,
          search.Offers direction moment.near id link offer →
          moment.state.labelAt (direction.farEnd link) = some known → known.settled = true →
            ¬ offer.cost < known.cost) ∧
        moment.taken ≤ search.network.linkCount + 1) ∧
      ∃ last entries outcome, search.Reaches root rootTime direction maxCost target last ∧
        search.Ends direction maxCost target last entries outcome ∧
        entries ≤ search.network.linkCount + 1 ∧
        search.run root rootTime direction maxCost target =
          SearchState.tree root direction rootTime <$> outcome) := by
  obtain ⟨-, hsound⟩ := NetworkDraft.sound_build hbuild
  refine ⟨fun _ _ _ _ => run_ne_lateDecrease hsound, fun hroot => ⟨fun moment hreaches => ?_, ?_⟩⟩
  · have horder := (InOrder.start hroot direction).steps hreaches
    exact ⟨horder.settledInOrder root rootTime,
      fun next hstep node label => hstep.labelAt_eq,
      fun id hid link offer known => horder.not_offer_lt (List.ne_nil_of_mem hid),
      horder.taken_le⟩
  · obtain ⟨last, entries, outcome, hreaches, hends, hrun⟩ :=
      run_ends hsound hroot rootTime direction maxCost target
    exact ⟨last, entries, outcome, hreaches, hends,
      ((InOrder.start hroot direction).steps hreaches).entries_le hends, hrun⟩

end RoadSearch

/-- From the first crossing, with a bound that leaves out the long street. -/
theorem crossings_in_order : crossings.build = .ok crossingSearch.network ∧
    crossingSearch.network.contains ⟨0⟩ = true ∧
    ∃ last entries outcome, crossingSearch.Reaches ⟨0⟩ 28800 .forward 150 none last ∧
      crossingSearch.Ends .forward 150 none last entries outcome ∧
      (last.state.tree ⟨0⟩ .forward 28800).SettledInOrder ∧
      entries ≤ crossingSearch.network.linkCount + 1 ∧
      crossingSearch.run ⟨0⟩ 28800 .forward 150 none =
        SearchState.tree ⟨0⟩ .forward 28800 <$> outcome := by
  have hroot : crossingSearch.network.contains ⟨0⟩ = true := by decide
  obtain ⟨-, horder⟩ :=
    RoadSearch.run_in_order crossingSearch build_crossings ⟨0⟩ 28800 .forward 150 none
  obtain ⟨hmoments, last, entries, outcome, hreaches, hends, hentries, hrun⟩ := horder hroot
  exact ⟨build_crossings, hroot, last, entries, outcome, hreaches, hends,
    (hmoments last hreaches).1, hentries, hrun⟩

end ZoneSkims
