import ZoneSkims.Proofs.Road.Faults
import ZoneSkims.Proofs.Scalar.Difference
import ZoneSkims.Proofs.Scalar.Plain

/-!
# How ties are broken

Where every link that is followed raises the cost, the tree of a search is a function of the network
and the link functions alone. Nodes are settled by cost and then by id, however the frontier is laid
out and whatever it still holds of labels that were lowered. Of several links over which a node has
its cost, its label names the one that is followed first: that of the earliest node, and of parallel
links the one with the lowest id.

* `Frontier.Entry.Before`: the order in which nodes are settled.
* `RoadSearch.Raises`: every followed link raises the cost.
* `RoadSearch.Made`, `RoadSearch.Chosen`: the offers that were made, and those that were taken.
* `RoadSearch.Ranked`: what every step of a search preserves.
* `RoadSearch.run_canonical`: the main result.
-/

namespace ZoneSkims

variable {α : Type}

/-! ## Orders -/

/-- By cost, and at the same cost by node. -/
def Frontier.Entry.Before [Scalar α] (a b : Frontier.Entry α) : Prop :=
  a.cost < b.cost ∨ a.cost = b.cost ∧ a.node < b.node

variable [Scalar α]

namespace Scalar

/-- 0, or above 0. -/
def IsCost (a : α) : Prop := a = 0 ∨ 0 < a

variable {a b : α}

theorem IsCost.not_isNegativeZero [LawfulSign α] (h : IsCost a) : ¬ IsNegativeZero a := by
  rintro ⟨rfl, hne⟩
  exact h.elim hne LawfulSign.not_zero_lt_neg_zero

variable [LawfulScalar α]

theorem IsCost.zero_le (h : IsCost a) : 0 ≤ a := by
  rcases h with rfl | h
  · exact Scalar.le_refl (isNumber_of_isFinite LawfulScalar.isFinite_zero)
  · exact Scalar.le_of_lt h

theorem IsCost.isNumber (h : IsCost a) : IsNumber a := Scalar.isNumber_right h.zero_le

/-- What is above a cost is above 0. -/
theorem IsCost.zero_lt (ha : IsCost a) (h : a < b) : 0 < b := Scalar.lt_of_le_of_lt ha.zero_le h

variable [LawfulSign α] [LawfulZero α]

/-- Costs of which neither is less are the same. -/
theorem IsCost.lt_or_eq (ha : IsCost a) (hb : IsCost b) (h : a ≤ b) : a < b ∨ a = b := by
  by_cases hge : b ≤ a
  · exact .inr (LawfulZero.eq_of_le h hge ha.not_isNegativeZero hb.not_isNegativeZero)
  · exact .inl (LawfulScalar.lt_iff.mpr ⟨h, hge⟩)

end Scalar

variable [LawfulScalar α] [LawfulSign α] [LawfulZero α]

/-- What leaves a frontier first is settled before the other entries. -/
theorem Frontier.Entry.before_or_eq {a b : Frontier.Entry α} (ha : Scalar.IsCost a.cost)
    (hb : Scalar.IsCost b.cost) (h : a.precedes b = true) : a.Before b ∨ a = b := by
  have hle : a.cost ≤ b.cost := Scalar.le_of_not_lt hb.isNumber ha.isNumber (not_cost_lt h)
  rcases ha.lt_or_eq hb hle with hlt | heq
  · exact .inl (.inl hlt)
  obtain ⟨cost, ⟨raw⟩⟩ := a
  obtain ⟨cost', ⟨raw'⟩⟩ := b
  obtain rfl : cost = cost' := heq
  have hself : Scalar.order cost cost = .eq := Std.ReflCmp.compare_self
  simp only [precedes, compare, hself, Ordering.then] at h
  rcases UInt32.lt_or_eq_of_le (Std.isLE_compare.mp h) with hlt | rfl
  · exact .inl (.inr ⟨rfl, hlt⟩)
  · exact .inr rfl

namespace RoadSearch

omit [LawfulScalar α] [LawfulSign α] [LawfulZero α]

/-! ## Offers -/

/-- Every link that leaves a settled node raises the cost. -/
def Raises (search : RoadSearch α) (direction : Direction) (state : SearchState α) : Prop :=
  ∀ node label, state.labelAt node = some label → label.settled = true →
    ∀ id link, search.network.links[id.index]? = some link → direction.nearEnd link = node →
      ∀ linkCost, search.cost.value id label.time = .ok linkCost →
        label.cost < label.cost + linkCost

/-- The label was offered over a link of a settled node, which is no longer to be followed. -/
structure Made (search : RoadSearch α) (direction : Direction)
    (labelAt : NodeId → Option (Label α)) (pending : List LinkId) (id : LinkId) (link : Link α)
    (near offer : Label α) : Prop where
  offers : search.Offers direction near id link offer
  known : labelAt (direction.nearEnd link) = some near
  settled : near.settled = true
  followed : id ∉ pending

/-- The label of a node was offered over this link. Whether it is settled does not matter. -/
structure Chosen (search : RoadSearch α) (direction : Direction)
    (labelAt : NodeId → Option (Label α)) (pending : List LinkId) (node : NodeId) (label : Label α)
    (id : LinkId) (link : Link α) (near : Label α) : Prop where
  pred : label.pred = some id
  made : Made search direction labelAt pending id link near { label with settled := false }
  far : direction.farEnd link = node

/-- The node from which a link is followed, as it left the frontier. -/
def origin (direction : Direction) (link : Link α) (near : Label α) : Frontier.Entry α :=
  ⟨near.cost, direction.nearEnd link⟩

/-- The first link is followed before the other one, or they are the same: its node is settled
before, or of the links of one node it has the lower id. -/
def ComesFirst (direction : Direction) (id : LinkId) (link : Link α) (near : Label α)
    (id' : LinkId) (link' : Link α) (near' : Label α) : Prop :=
  (origin direction link near).Before (origin direction link' near') ∨
    origin direction link near = origin direction link' near' ∧ id ≤ id'

variable {search : RoadSearch α} {direction : Direction} {root node : NodeId}
  {rootTime maxCost : α} {near near' label offer : Label α} {id id' : LinkId} {link link' : Link α}
  {state after : SearchState α} {moment next : SearchMoment α} {taken : Nat}
  {entry : Frontier.Entry α} {rest : Frontier α} {pending : List LinkId}
  {labelAt : NodeId → Option (Label α)}

/-- What raises the cost at last raised it at all times. -/
theorem Raises.of_step (h : search.Raises direction next.state)
    (hstep : search.Step direction maxCost none moment next) :
    search.Raises direction moment.state :=
  fun node label hlabel hsettled =>
    h node label (hstep.labelAt_eq hlabel hsettled) hsettled

theorem Raises.lt_offer (h : search.Raises direction state)
    (hmade : Made search direction state.labelAt pending id link near offer) :
    near.cost < offer.cost := by
  obtain ⟨⟨hlink, travelTime, linkCost, hvalues, rfl⟩, hknown, hsettled, -⟩ := hmade
  exact h _ near hknown hsettled id link hlink rfl linkCost
    (ok_linkValues search id near.time _ hvalues).2

/-- The link of a label is known by it. -/
theorem Chosen.unique (h : Chosen search direction labelAt pending node label id link near)
    (h' : Chosen search direction labelAt pending node label id' link' near') :
    id = id' ∧ link = link' ∧ near = near' := by
  cases h.pred.symm.trans h'.pred
  cases h.made.offers.found.symm.trans h'.made.offers.found
  cases h.made.known.symm.trans h'.made.known
  exact ⟨rfl, rfl, rfl⟩

/-- Whoever made an offer keeps its label when an open node takes another one. -/
theorem labelAt_eq_of_relaxed (hrelaxed : Relaxed search direction near' state id' after)
    (hsettled : near.settled = true) :
    after.labelAt node = some near ↔ state.labelAt node = some near := by
  refine ⟨fun hknown => ?_, fun hknown => hrelaxed.labelAt_eq hknown hsettled⟩
  cases hrelaxed with
  | refused => exact hknown
  | taken hoffer hfar => exact SearchState.labelAt_of_lower hfar hoffer.unsettled hknown hsettled

/-- Following a link takes no offer back. -/
theorem Made.follow
    (h : Made search direction state.labelAt (id' :: pending) id link near offer)
    (hrelaxed : Relaxed search direction near' state id' after) :
    Made search direction after.labelAt pending id link near offer :=
  ⟨h.offers, (labelAt_eq_of_relaxed hrelaxed h.settled).mpr h.known, h.settled,
    fun hmem => h.followed (List.mem_cons_of_mem id' hmem)⟩

theorem Chosen.follow
    (h : Chosen search direction state.labelAt (id' :: pending) node label id link near)
    (hrelaxed : Relaxed search direction near' state id' after) :
    Chosen search direction after.labelAt pending node label id link near :=
  ⟨h.pred, h.made.follow hrelaxed, h.far⟩

/-- Settling a node makes no offer and takes none back. -/
theorem made_close (hlinks : search.network.linkCount < 2 ^ 32) (hlive : Live state entry label) :
    Made search direction
        (SearchState.close { state with frontier := rest } entry.node label).labelAt
        (search.network.leaving direction entry.node) id link near offer ↔
      Made search direction state.labelAt [] id link near offer := by
  have hlt := SearchState.lt_of_labelAt hlive.known
  constructor
  · intro h
    obtain ⟨hnode, -⟩ | ⟨-, hknown⟩ := SearchState.labelAt_close_cases hlt h.known
    · exact absurd ((Network.mem_leaving hlinks).mpr ⟨link, h.offers.found, hnode⟩) h.followed
    · exact ⟨h.offers, hknown, h.settled, List.not_mem_nil⟩
  · intro h
    have hnode : direction.nearEnd link ≠ entry.node := by
      intro hnode
      have hopen := hlive.isOpen near (hnode ▸ h.known)
      exact Bool.false_ne_true (hopen.symm.trans h.settled)
    refine ⟨h.offers, (SearchState.labelAt_close_of_ne hnode).trans h.known, h.settled,
      fun hmem => ?_⟩
    obtain ⟨link', hlink', hnear⟩ := (Network.mem_leaving hlinks).mp hmem
    cases h.offers.found.symm.trans hlink'
    exact hnode hnear

/-- Settling a node changes no label but for the mark that the node is settled. -/
theorem Chosen.close {known known' : Label α} (hlinks : search.network.linkCount < 2 ^ 32)
    (hlive : Live state entry label)
    (h : Chosen search direction state.labelAt [] node known id link near)
    (heq : { known' with settled := false } = { known with settled := false }) :
    Chosen search direction
      (SearchState.close { state with frontier := rest } entry.node label).labelAt
      (search.network.leaving direction entry.node) node known' id link near := by
  obtain ⟨-, -, -, -, hpred⟩ := Label.mk.inj heq
  exact ⟨hpred.trans h.pred, heq ▸ (made_close hlinks hlive).mpr h.made, h.far⟩

/-- The link that is followed next is not followed again. -/
theorem Current.not_mem {followed : List LinkId}
    (h : Current search direction maxCost moment node followed)
    (hlinks : search.network.linkCount < 2 ^ 32) (hpending : moment.pending = id :: pending) :
    (∀ id' ∈ followed, id' < id) ∧ id ∉ pending := by
  have hpairwise := Network.leaving_pairwise hlinks direction node
  rw [h.links, hpending] at hpairwise
  obtain ⟨-, hrest, hbefore⟩ := List.pairwise_append.mp hpairwise
  refine ⟨fun id' hid' => hbefore id' hid' id List.mem_cons_self, fun hmem => ?_⟩
  exact UInt32.lt_irrefl _ ((List.pairwise_cons.mp hrest).1 id hmem)

/-- Following a link makes the offer of this link. -/
theorem made_current {followed : List LinkId}
    (hcurrent : Current search direction maxCost ⟨state, taken, near, id :: pending⟩ node followed)
    (hlinks : search.network.linkCount < 2 ^ 32)
    (hrelaxed : Relaxed search direction near state id after)
    (hoffer : search.Offers direction near id link offer) :
    Made search direction after.labelAt pending id link { near with settled := true } offer := by
  refine ⟨hoffer.settled, ?_, rfl, (hcurrent.not_mem hlinks rfl).2⟩
  rw [hcurrent.nearEnd_eq hlinks rfl hoffer.found]
  exact hrelaxed.labelAt_eq hcurrent.known rfl

/-- Following a link makes no other offer. -/
theorem Made.of_current {followed : List LinkId}
    (h : Made search direction after.labelAt pending id' link' near' offer)
    (hcurrent : Current search direction maxCost ⟨state, taken, near, id :: pending⟩ node followed)
    (hlinks : search.network.linkCount < 2 ^ 32)
    (hrelaxed : Relaxed search direction near state id after) :
    Made search direction state.labelAt (id :: pending) id' link' near' offer ∨
      id' = id ∧ near'.cost = near.cost ∧ search.Offers direction near id link' offer := by
  by_cases hid : id' = id
  · subst hid
    have hknown := h.known
    rw [hcurrent.nearEnd_eq hlinks rfl h.offers.found,
      hrelaxed.labelAt_eq hcurrent.known rfl] at hknown
    cases hknown
    exact .inr ⟨rfl, rfl, h.offers.found, h.offers.values⟩
  · exact .inl ⟨h.offers, (labelAt_eq_of_relaxed hrelaxed h.settled).mp h.known, h.settled,
      List.not_mem_cons_of_ne_of_not_mem hid h.followed⟩

/-! ## What every step preserves -/

/-- The settled nodes are in order and before the frontier, and every label was offered over the
first link that offers its cost. -/
structure Ranked (search : RoadSearch α) (direction : Direction) (root : NodeId)
    (moment : SearchMoment α) : Prop where
  cost : ∀ node label, moment.state.labelAt node = some label →
    Scalar.IsCost label.cost ∧ label.cost < Scalar.infinity
  entry : ∀ entry ∈ moment.state.frontier.toList, Scalar.IsCost entry.cost
  before : ∀ node label, moment.state.labelAt node = some label → label.settled = true →
    ∀ entry ∈ moment.state.frontier.toList,
      Frontier.Entry.Before ⟨label.cost, node⟩ entry ∨ ⟨label.cost, node⟩ = entry
  ranked : moment.state.settled.Pairwise fun later earlier => ∀ label label',
    moment.state.labelAt later = some label → moment.state.labelAt earlier = some label' →
      Frontier.Entry.Before ⟨label'.cost, earlier⟩ ⟨label.cost, later⟩
  chosen : ∀ node label, moment.state.labelAt node = some label →
    node = root ∧ label.cost = 0 ∨ ∃ id link near,
      Chosen search direction moment.state.labelAt moment.pending node label id link near
  /-- The offer was taken, or the node had its label by then. -/
  answered : ∀ id link near offer,
    Made search direction moment.state.labelAt moment.pending id link near offer →
    offer.cost < Scalar.infinity →
      ∃ far, moment.state.labelAt (direction.farEnd link) = some far ∧
        (far.cost < offer.cost ∨ far.cost = offer.cost ∧ ∃ id' link' near',
          Chosen search direction moment.state.labelAt moment.pending (direction.farEnd link) far
            id' link' near' ∧ ComesFirst direction id' link' near' id link near)

namespace Ranked

variable [LawfulScalar α]

theorem start (hroot : search.network.contains root = true) (direction : Direction) :
    Ranked search direction root (search.begin root rootTime) := by
  refine ⟨fun node label hlabel => ?_, fun entry hentry => ?_, fun node label hlabel hsettled => ?_,
    List.Pairwise.nil, fun node label hlabel => ?_, fun id link near offer hmade => ?_⟩
  · obtain ⟨-, rfl⟩ := (labelAt_start hroot).mp hlabel
    exact ⟨.inl rfl, Scalar.lt_infinity_of_isFinite LawfulScalar.isFinite_zero⟩
  · have hperm := Frontier.toList_push (Frontier.Valid.empty (α := α)) ⟨0, root⟩
    rcases List.mem_cons.mp (hperm.mem_iff.mp hentry) with rfl | hentry
    · exact .inl rfl
    · exact absurd hentry List.not_mem_nil
  · obtain ⟨-, rfl⟩ := (labelAt_start hroot).mp hlabel
    cases hsettled
  · obtain ⟨rfl, rfl⟩ := (labelAt_start hroot).mp hlabel
    exact .inl ⟨rfl, rfl⟩
  · obtain ⟨-, rfl⟩ := (labelAt_start hroot).mp hmade.known
    cases hmade.settled

omit [LawfulScalar α] in
theorem skip (h : Ranked search direction root ⟨state, taken, near, []⟩)
    (hpopped : state.frontier.Popped entry rest) :
    Ranked search direction root ⟨{ state with frontier := rest }, taken + 1, near, []⟩ :=
  ⟨h.cost, fun other hother => h.entry other (hpopped.mem_of_rest hother),
    fun node label hlabel hsettled other hother =>
      h.before node label hlabel hsettled other (hpopped.mem_of_rest hother),
    h.ranked, h.chosen, h.answered⟩

omit [LawfulScalar α] in
/-- The link of a label comes before the link that is followed next. -/
theorem comesFirst {v : NodeId} {followed : List LinkId} {far : NodeId}
    (h : Ranked search direction root ⟨state, taken, near, id :: pending⟩)
    (horder : InOrder search direction ⟨state, taken, near, id :: pending⟩)
    (hcurrent : Current search direction maxCost ⟨state, taken, near, id :: pending⟩ v followed)
    (hlinks : search.network.linkCount < 2 ^ 32)
    (hlink : search.network.links[id.index]? = some link)
    (hchosen : Chosen search direction state.labelAt (id :: pending) far label id' link' near') :
    ComesFirst direction id' link' near' id link near := by
  obtain ⟨older, holder⟩ := List.head?_eq_some_iff.mp hcurrent.last
  have hnode := hcurrent.nearEnd_eq hlinks rfl hlink
  have hmem : direction.nearEnd link' ∈ state.settled :=
    (horder.mem_settled _).mpr ⟨near', hchosen.made.known, hchosen.made.settled⟩
  have hranked : state.settled.Pairwise _ := h.ranked
  rw [show state.settled = v :: older from holder] at hmem hranked
  rcases List.mem_cons.mp hmem with hv | holder
  · -- Links of one node are followed in the order of their ids.
    have hknown := hchosen.made.known
    rw [hv] at hknown
    cases hcurrent.known.symm.trans hknown
    have hleaving : id' ∈ search.network.leaving direction v :=
      (Network.mem_leaving hlinks).mpr ⟨link', hchosen.made.offers.found, hv⟩
    rw [hcurrent.links] at hleaving
    have hfollowed := (List.mem_append.mp hleaving).resolve_right hchosen.made.followed
    refine .inr ⟨?_, UInt32.le_of_lt ((hcurrent.not_mem hlinks rfl).1 id' hfollowed)⟩
    rw [origin, origin, hv, hnode]
  · refine .inl ?_
    rw [origin, origin, hnode]
    have hbefore := (List.pairwise_cons.mp hranked).1 _ holder { near with settled := true } near'
      hcurrent.known hchosen.made.known
    exact hbefore

/-- An offer that is taken lowers the label below all that the node was offered before. -/
theorem take {v : NodeId} {followed : List LinkId}
    (h : Ranked search direction root ⟨state, taken, near, id :: pending⟩)
    (horder : InOrder search direction ⟨state, taken, near, id :: pending⟩)
    (hcurrent : Current search direction maxCost ⟨state, taken, near, id :: pending⟩ v followed)
    (hlinks : search.network.linkCount < 2 ^ 32)
    (hoffer : search.Offers direction near id link label) (hlt : near.cost < label.cost)
    (hfar : (direction.farEnd link).index < state.labels.size)
    (hopen : state.Open (direction.farEnd link))
    (hlower : label.cost < costOf (state.labelAt (direction.farEnd link))) :
    Ranked search direction root
      ⟨state.lower (direction.farEnd link) label, taken, near, pending⟩ := by
  have hrelaxed : Relaxed search direction near state id
      (state.lower (direction.farEnd link) label) := .taken hoffer hfar hopen hlower
  have hnear : Scalar.IsCost near.cost := (h.cost v _ hcurrent.known).1
  have hlabel : Scalar.IsCost label.cost := .inr (hnear.zero_lt hlt)
  obtain ⟨-, hdearest⟩ := horder.dearest (List.cons_ne_nil id pending)
  have hpush := Frontier.toList_push horder.valid ⟨label.cost, direction.farEnd link⟩
  have hflag : { label with settled := false } = label := by rw [← hoffer.unsettled]
  have hpred : label.pred = some id := by
    obtain ⟨-, _, _, -, rfl⟩ := hoffer
    rfl
  have hmine : Chosen search direction (state.lower (direction.farEnd link) label).labelAt pending
      (direction.farEnd link) label id link { near with settled := true } :=
    ⟨hpred, hflag.symm ▸ made_current hcurrent hlinks hrelaxed hoffer, rfl⟩
  refine ⟨fun n known hknown => ?cost, fun entry hentry => ?entry,
    fun n known hknown hsettled entry hentry => ?before,
    h.ranked.imp_of_mem fun {n n'} hn hn' hbefore known known' hknown hknown' => ?ranked,
    fun n known hknown => ?chosen, fun id' link' near' offer hmade hfinite => ?answered⟩
  case cost =>
    obtain ⟨-, rfl⟩ | ⟨-, hknown⟩ := SearchState.labelAt_lower_cases hfar hknown
    · refine ⟨hlabel, ?_⟩
      cases hwas : state.labelAt (direction.farEnd link) with
      | none => rwa [hwas] at hlower
      | some far =>
        rw [hwas] at hlower
        exact Scalar.lt_trans hlower (h.cost _ far hwas).2
    · exact h.cost n known hknown
  case entry =>
    rcases List.mem_cons.mp (hpush.mem_iff.mp hentry) with rfl | hentry
    · exact hlabel
    · exact h.entry entry hentry
  case before =>
    have hknown := SearchState.labelAt_of_lower hfar hoffer.unsettled hknown hsettled
    rcases List.mem_cons.mp (hpush.mem_iff.mp hentry) with rfl | hentry
    · exact .inl (.inl (Scalar.lt_of_le_of_lt (hdearest n known hknown hsettled) hlt))
    · exact h.before n known hknown hsettled entry hentry
  case ranked =>
    have hkept : ∀ m ∈ state.settled, m ≠ direction.farEnd link := by
      rintro m hm rfl
      exact horder.not_mem_settled hopen hm
    exact hbefore known known' ((SearchState.labelAt_lower_of_ne (hkept n hn)).symm.trans hknown)
      ((SearchState.labelAt_lower_of_ne (hkept n' hn')).symm.trans hknown')
  case chosen =>
    obtain ⟨rfl, rfl⟩ | ⟨-, hknown⟩ := SearchState.labelAt_lower_cases hfar hknown
    · exact .inr ⟨id, link, _, hmine⟩
    · exact (h.chosen n known hknown).imp_right fun ⟨id', link', near', hlink⟩ =>
        ⟨id', link', near', hlink.follow hrelaxed⟩
  case answered =>
    rcases hmade.of_current hcurrent hlinks hrelaxed with hmade | ⟨rfl, hcost, hoffer'⟩
    · obtain ⟨far, hknown, hanswer⟩ := h.answered id' link' near' offer hmade hfinite
      by_cases hnode : direction.farEnd link' = direction.farEnd link
      · rw [hnode] at hknown ⊢
        rw [hknown] at hlower
        have hlt : label.cost < offer.cost := by
          rcases hanswer with hanswer | ⟨heq, -⟩
          · exact Scalar.lt_trans hlower hanswer
          · rwa [← heq]
        exact ⟨label, SearchState.labelAt_lower_self hfar, .inl hlt⟩
      · refine ⟨far, (SearchState.labelAt_lower_of_ne hnode).trans hknown,
          hanswer.imp_right fun ⟨heq, id₀, link₀, near₀, hlink, hfirst⟩ => ?_⟩
        exact ⟨heq, id₀, link₀, near₀, hlink.follow hrelaxed, hfirst⟩
    · cases hoffer.found.symm.trans hoffer'.found
      cases hoffer.unique hoffer'
      refine ⟨label, SearchState.labelAt_lower_self hfar,
        .inr ⟨rfl, id', link, _, hmine, .inr ⟨?_, UInt32.le_refl _⟩⟩⟩
      rw [origin, origin, hcost]

variable [LawfulSign α] [LawfulZero α]

/-- A node is settled after all that are settled already. -/
theorem settle (h : Ranked search direction root ⟨state, taken, near, []⟩)
    (horder : InOrder search direction ⟨state, taken, near, []⟩)
    (hlinks : search.network.linkCount < 2 ^ 32)
    (hpop : state.frontier.pop? = some (entry, rest)) (hlive : Live state entry label) :
    Ranked search direction root
      ⟨SearchState.close { state with frontier := rest } entry.node label, taken + 1, label,
        search.network.leaving direction entry.node⟩ := by
  have hpopped := horder.valid.pop hpop
  have hlt := SearchState.lt_of_labelAt hlive.known
  have hcost := (h.cost _ _ hlive.known).1
  have hentry := h.entry entry hpopped.mem_top
  -- A live entry is that of its node's label.
  have hsame : (⟨label.cost, entry.node⟩ : Frontier.Entry α) = entry := by
    rcases hcost.lt_or_eq hentry (horder.toQueued.cost_le hpop hlive) with hlt | heq
    · exact absurd hlt hlive.not_cheaper
    · rw [heq]
  have hnew : entry.node ∉ state.settled := horder.not_mem_settled hlive.isOpen
  refine ⟨fun n known hknown => ?cost,
    fun other hother => h.entry other (hpopped.mem_of_rest hother),
    fun n known hknown hsettled other hother => ?before,
    List.pairwise_cons.mpr ⟨fun n hn known known' hknown hknown' => ?last,
      h.ranked.imp_of_mem fun {n n'} hn hn' hbefore known known' hknown hknown' => ?earlier⟩,
    fun n known hknown => ?chosen, fun id link near offer hmade hfinite => ?answered⟩
  case cost =>
    obtain ⟨rfl, rfl⟩ | ⟨-, hknown⟩ := SearchState.labelAt_close_cases hlt hknown
    · exact h.cost entry.node label hlive.known
    · exact h.cost n known hknown
  case before =>
    have hother := hpopped.mem_of_rest hother
    obtain ⟨rfl, rfl⟩ | ⟨-, hknown⟩ := SearchState.labelAt_close_cases hlt hknown
    · rw [hsame]
      exact Frontier.Entry.before_or_eq hentry (h.entry other hother) (hpopped.first other hother)
    · exact h.before n known hknown hsettled other hother
  case last =>
    have hne : n ≠ entry.node := fun heq => hnew (heq ▸ hn)
    cases (SearchState.labelAt_close_self hlt).symm.trans hknown
    have hkept := (SearchState.labelAt_close_of_ne hne).symm.trans hknown'
    obtain ⟨found, hfound, hsettled⟩ := (horder.mem_settled n).mp hn
    cases hkept.symm.trans hfound
    rw [hsame]
    refine (h.before n known' hfound hsettled entry hpopped.mem_top).resolve_right fun heq => hne ?_
    exact congrArg Frontier.Entry.node heq
  case earlier =>
    have hkept : ∀ m ∈ state.settled, m ≠ entry.node := fun m hm heq => hnew (heq ▸ hm)
    exact hbefore known known' ((SearchState.labelAt_close_of_ne (hkept n hn)).symm.trans hknown)
      ((SearchState.labelAt_close_of_ne (hkept n' hn')).symm.trans hknown')
  case chosen =>
    obtain ⟨rfl, rfl⟩ | ⟨-, hknown⟩ := SearchState.labelAt_close_cases hlt hknown
    · exact (h.chosen entry.node label hlive.known).imp_right fun ⟨id, link, near, hlink⟩ =>
        ⟨id, link, near, hlink.close hlinks hlive rfl⟩
    · exact (h.chosen n known hknown).imp_right fun ⟨id, link, near, hlink⟩ =>
        ⟨id, link, near, hlink.close hlinks hlive rfl⟩
  case answered =>
    obtain ⟨far, hfar, hanswer⟩ :=
      h.answered id link near offer ((made_close hlinks hlive).mp hmade) hfinite
    have hknown : ∃ far', (SearchState.close { state with frontier := rest } entry.node
        label).labelAt (direction.farEnd link) = some far' ∧
          { far' with settled := false } = { far with settled := false } := by
      by_cases hnode : direction.farEnd link = entry.node
      · rw [hnode] at hfar ⊢
        cases hlive.known.symm.trans hfar
        exact ⟨_, SearchState.labelAt_close_self hlt, rfl⟩
      · exact ⟨far, (SearchState.labelAt_close_of_ne hnode).trans hfar, rfl⟩
    obtain ⟨far', hfar', heq⟩ := hknown
    obtain ⟨hcost, -⟩ := Label.mk.inj heq
    refine ⟨far', hfar', ?_⟩
    rw [hcost]
    exact hanswer.imp_right fun ⟨hsame, id', link', near', hlink, hfirst⟩ =>
      ⟨hsame, id', link', near', hlink.close hlinks hlive heq, hfirst⟩

/-- An offer is refused when the node has a cheaper label, or one from a link that comes first. -/
theorem refuse {v : NodeId} {followed : List LinkId}
    (h : Ranked search direction root ⟨state, taken, near, id :: pending⟩)
    (horder : InOrder search direction ⟨state, taken, near, id :: pending⟩)
    (hcurrent : Current search direction maxCost ⟨state, taken, near, id :: pending⟩ v followed)
    (hlinks : search.network.linkCount < 2 ^ 32)
    (hrelaxed : Relaxed search direction near state id state)
    (hoffer : search.Offers direction near id link label) (hlt : near.cost < label.cost)
    (hrefused : ¬ label.cost < costOf (state.labelAt (direction.farEnd link))) :
    Ranked search direction root ⟨state, taken, near, pending⟩ := by
  refine ⟨h.cost, h.entry, h.before, h.ranked,
    fun n known hknown => (h.chosen n known hknown).imp_right fun ⟨id', link', near', hlink⟩ =>
      ⟨id', link', near', hlink.follow hrelaxed⟩,
    fun id' link' near' offer hmade hfinite => ?_⟩
  rcases hmade.of_current hcurrent hlinks hrelaxed with hmade | ⟨rfl, hcost, hoffer'⟩
  · obtain ⟨far, hknown, hanswer⟩ := h.answered id' link' near' offer hmade hfinite
    refine ⟨far, hknown, hanswer.imp_right fun ⟨heq, id₀, link₀, near₀, hlink, hfirst⟩ => ?_⟩
    exact ⟨heq, id₀, link₀, near₀, hlink.follow hrelaxed, hfirst⟩
  cases hoffer.found.symm.trans hoffer'.found
  cases hoffer.unique hoffer'
  cases hknown : state.labelAt (direction.farEnd link) with
  | none =>
    rw [hknown] at hrefused
    exact absurd hfinite hrefused
  | some far =>
    rw [hknown] at hrefused
    have hnear : Scalar.IsCost near.cost := (h.cost v _ hcurrent.known).1
    have hlabel : Scalar.IsCost label.cost := .inr (hnear.zero_lt hlt)
    have hfar := (h.cost _ far hknown).1
    refine ⟨far, rfl, ?_⟩
    have hle : far.cost ≤ label.cost :=
      Scalar.le_of_not_lt hlabel.isNumber hfar.isNumber hrefused
    refine (hfar.lt_or_eq hlabel hle).imp_right fun heq => ⟨heq, ?_⟩
    rcases h.chosen _ far hknown with ⟨-, hzero⟩ | ⟨id₀, link₀, near₀, hlink⟩
    · rw [← heq, hzero] at hlt
      exact absurd hlt (Scalar.not_lt_of_le hnear.zero_le)
    · have hfirst := h.comesFirst horder hcurrent hlinks hoffer.found hlink
      refine ⟨id₀, link₀, near₀, hlink.follow hrelaxed, ?_⟩
      unfold ComesFirst origin at hfirst ⊢
      rwa [hcost]

theorem follow (h : Ranked search direction root ⟨state, taken, near, id :: pending⟩)
    (hcharted : Charted search direction root rootTime maxCost ⟨state, taken, near, id :: pending⟩)
    (hlinks : search.network.linkCount < 2 ^ 32) (hraises : search.Raises direction after)
    (hrelax : search.relax direction near state id = .ok after) :
    Ranked search direction root ⟨after, taken, near, pending⟩ := by
  obtain ⟨v, followed, hcurrent⟩ := hcharted.current (List.cons_ne_nil id pending)
  have hrelaxed := ok_relax search direction near state id after hrelax
  have hlt : ∀ link label, search.Offers direction near id link label → near.cost < label.cost := by
    intro link label hoffer
    have hlt := hraises.lt_offer (made_current hcurrent hlinks hrelaxed hoffer)
    exact hlt
  cases hrelaxed with
  | refused hoffer hfar hrefused =>
    exact h.refuse hcharted.toInOrder hcurrent hlinks (.refused hoffer hfar hrefused) hoffer
      (hlt _ _ hoffer) hrefused
  | taken hoffer hfar hopen hlower =>
    exact h.take hcharted.toInOrder hcurrent hlinks hoffer (hlt _ _ hoffer) hfar hopen hlower

theorem step (h : Ranked search direction root moment)
    (hcharted : Charted search direction root rootTime maxCost moment)
    (hlinks : search.network.linkCount < 2 ^ 32) (hraises : search.Raises direction next.state)
    (hstep : search.Step direction maxCost none moment next) :
    Ranked search direction root next := by
  cases hstep with
  | skip _ hpop _ => exact h.skip (hcharted.valid.pop hpop)
  | settle _ hpop hlive _ => exact h.settle hcharted.toInOrder hlinks hpop hlive
  | follow hrelax => exact h.follow hcharted hlinks hraises hrelax

theorem of_reaches (hroot : search.network.contains root = true)
    (hlinks : search.network.linkCount < 2 ^ 32)
    (hreaches : search.Reaches root rootTime direction maxCost none moment)
    (hraises : search.Raises direction moment.state) : Ranked search direction root moment := by
  induction hreaches with
  | refl => exact start hroot direction
  | tail hreaches hstep ih =>
    exact (ih (hraises.of_step hstep)).step (Charted.of_reaches hroot hlinks hreaches) hlinks
      hraises hstep

end Ranked

/-! ## The whole search -/

/-- The link leads from a settled node to a node at this cost. -/
structure Attains (search : RoadSearch α) (tree : PathTree α) (node : NodeId) (cost : α)
    (id : LinkId) (link : Link α) (near : Label α) : Prop where
  found : search.network.links[id.index]? = some link
  known : tree.label? (tree.direction.nearEnd link) = some near
  far : tree.direction.farEnd link = node
  cost_eq : ∃ linkCost, search.cost.value id near.time = .ok linkCost ∧ near.cost + linkCost = cost

/-- The link of a label leads to its node at its cost. -/
theorem Chosen.attains (h : Chosen search direction moment.state.labelAt pending node label id link
    near) :
    search.Attains (moment.state.tree root direction rootTime) node label.cost id link near := by
  obtain ⟨hfound, travelTime, linkCost, hvalues, heq⟩ := h.made.offers
  obtain ⟨hcost, -⟩ := Label.mk.inj heq
  exact ⟨hfound, SearchState.label?_tree.mpr ⟨h.made.known, h.made.settled⟩, h.far, linkCost,
    (ok_linkValues search id near.time _ hvalues).2, hcost.symm⟩

variable [LawfulScalar α]

/-- At the end, whatever link leads from a settled node was followed and made its offer. -/
theorem Attains.exists_made {cost : α}
    (h : search.Attains (moment.state.tree root direction rootTime) node cost id link near)
    (hcharted : Charted search direction root rootTime maxCost moment)
    (hpending : moment.pending = []) :
    ∃ offer, offer.cost = cost ∧
      Made search direction moment.state.labelAt moment.pending id link near offer := by
  obtain ⟨hfound, hnear, -, linkCost, hcost, heq⟩ := h
  obtain ⟨hknown, hsettled⟩ := SearchState.label?_tree.mp hnear
  have hfollowed : id ∉ moment.pending := hpending ▸ List.not_mem_nil
  obtain ⟨travelTime, linkCost', hcharges⟩ :=
    hcharted.charged id link near hfound hknown hsettled hfollowed
  cases hcost.symm.trans hcharges.cost_eq
  exact ⟨near.along direction id link travelTime linkCost, heq,
    ⟨hfound, travelTime, linkCost, linkValues_eq_ok.mpr hcharges, rfl⟩, hknown, hsettled, hfollowed⟩

/-- The link of a label comes before all others over which its node was offered the same cost. -/
theorem Ranked.chosen_first (h : Ranked search direction root moment)
    (hknown : moment.state.labelAt node = some label)
    (hchosen : Chosen search direction moment.state.labelAt moment.pending node label id link near)
    (hmade : Made search direction moment.state.labelAt moment.pending id' link' near' offer)
    (hfar : direction.farEnd link' = node) (hcost : offer.cost = label.cost) :
    ComesFirst direction id link near id' link' near' := by
  obtain ⟨far, hfound, hanswer⟩ :=
    h.answered id' link' near' offer hmade (hcost ▸ (h.cost node label hknown).2)
  rw [hfar] at hfound hanswer
  cases hknown.symm.trans hfound
  rcases hanswer with hlt | ⟨-, id₀, link₀, near₀, hchosen₀, hfirst⟩
  · rw [hcost] at hlt
    exact absurd hlt (Scalar.lt_irrefl _)
  · obtain ⟨rfl, rfl, rfl⟩ := hchosen.unique hchosen₀
    exact hfirst

variable [LawfulSign α] [LawfulZero α]

/-- When a search succeeds and every link that leaves a settled node raises the cost, nodes were
settled in the order of their costs and ids, once each, and the label of every node but the root
names the first of all links from settled nodes over which the node has its cost. -/
theorem run_canonical (search : RoadSearch α) {draft : NetworkDraft α}
    (hbuild : draft.build = .ok search.network) (hlinks : draft.links.size < 2 ^ 32 - 1)
    {root : NodeId} {rootTime : α} {direction : Direction} {maxCost : α} {tree : PathTree α}
    (htree : search.run root rootTime direction maxCost none = .ok tree)
    (hraises : ∀ node label, tree.label? node = some label →
      ∀ id link, search.network.links[id.index]? = some link → direction.nearEnd link = node →
        ∀ linkCost, search.cost.value id label.time = .ok linkCost →
          label.cost < label.cost + linkCost) :
    (∀ node, node ∈ tree.settled ↔ ∃ label, tree.label? node = some label) ∧
    (tree.settled.Pairwise fun later earlier => ∃ cost cost',
      tree.cost? later = some cost ∧ tree.cost? earlier = some cost' ∧
        Frontier.Entry.Before ⟨cost', earlier⟩ ⟨cost, later⟩) ∧
    ∀ node label, tree.label? node = some label → node ≠ root →
      ∃ id link near, label.pred = some id ∧
        search.Attains tree node label.cost id link near ∧
        ∀ id' link' near', search.Attains tree node label.cost id' link' near' →
          ComesFirst direction id link near id' link' near' := by
  obtain ⟨-, hsound⟩ := NetworkDraft.sound_build hbuild
  have hcount : search.network.linkCount < 2 ^ 32 :=
    NetworkDraft.linkCount_lt_of_build hbuild hlinks
  obtain ⟨last, hreaches, hpending, rfl⟩ := exists_last hsound htree
  have hcharted := Charted.of_reaches (contains_of_run htree) hcount hreaches
  have hranked : Ranked search direction root last :=
    Ranked.of_reaches (contains_of_run htree) hcount hreaches fun node label hlabel hsettled =>
      hraises node label (SearchState.label?_tree.mpr ⟨hlabel, hsettled⟩)
  refine ⟨fun node => (hcharted.mem_settled node).trans (exists_congr fun label =>
    SearchState.label?_tree.symm), ?order, fun node label hlabel hnode => ?_⟩
  case order =>
    refine hranked.ranked.imp_of_mem fun {later earlier} hlater hearlier hbefore => ?_
    obtain ⟨label, hlabel, hsettled⟩ := (hcharted.mem_settled later).mp hlater
    obtain ⟨label', hlabel', hsettled'⟩ := (hcharted.mem_settled earlier).mp hearlier
    exact ⟨label.cost, label'.cost, SearchState.cost?_tree.mpr ⟨label, hlabel, hsettled, rfl⟩,
      SearchState.cost?_tree.mpr ⟨label', hlabel', hsettled', rfl⟩,
      hbefore label label' hlabel hlabel'⟩
  obtain ⟨hknown, -⟩ := SearchState.label?_tree.mp hlabel
  rcases hranked.chosen node label hknown with ⟨hroot, -⟩ | ⟨id, link, near, hchosen⟩
  · exact absurd hroot hnode
  refine ⟨id, link, near, hchosen.pred, hchosen.attains, fun id' link' near' hattains => ?_⟩
  obtain ⟨offer, hcost, hmade⟩ := hattains.exists_made hcharted hpending
  exact hranked.chosen_first hknown hchosen hmade hattains.far hcost

end RoadSearch

/-! ## An example -/

/-- A block between four crossings, with two ways around it of the same length. One of them ends in
two streets side by side. -/
def cityBlock : NetworkDraft Float :=
  let draft := (NetworkDraft.empty.addNode ⟨0, 0⟩).2
  let draft := (draft.addNode ⟨500, 0⟩).2
  let draft := (draft.addNode ⟨0, 500⟩).2
  let draft := (draft.addNode ⟨500, 500⟩).2
  let draft := (draft.addLink ⟨0⟩ ⟨2⟩ (.car 500 10)).2
  let draft := (draft.addLink ⟨0⟩ ⟨1⟩ (.car 500 10)).2
  let draft := (draft.addLink ⟨2⟩ ⟨3⟩ (.car 500 10)).2
  let draft := (draft.addLink ⟨1⟩ ⟨3⟩ (.car 500 10)).2
  (draft.addLink ⟨1⟩ ⟨3⟩ (.car 500 10)).2

theorem build_cityBlock : cityBlock.build = .ok cityBlock.layOut :=
  NetworkDraft.build_eq_ok.mpr ⟨by decide +kernel, rfl, rfl⟩

/-- The block in free flow, with the time as cost. -/
def blockSearch : RoadSearch Float where
  network := cityBlock.layOut
  travelTime := .freeFlow cityBlock.layOut
  cost := .timeCost (.freeFlow cityBlock.layOut)

/-- Each street takes 50 seconds. -/
theorem cost_blockSearch {id : LinkId} {time cost : Float}
    (h : blockSearch.cost.value id time = .ok cost) : cost = 50 := by
  have hall : (cityBlock.links.all fun link => decide (link.freeFlowTime = 50)) = true := by
    decide +kernel
  change Link.freeFlowTime <$> cityBlock.layOut.link id = .ok cost at h
  rw [map_eq_pure_bind] at h
  obtain ⟨link, hlink, hcost⟩ := bind_eq_ok.mp h
  have hmem : link ∈ cityBlock.links := Array.mem_of_getElem? (fetch_eq_ok.mp hlink)
  cases hcost
  obtain ⟨i, hi, rfl⟩ := Array.getElem_of_mem hmem
  exact of_decide_eq_true (Array.all_eq_true.mp hall i hi)

/-- The last crossing is reached over the second one, which is settled before the third although
the link to the third has the lower id, and over the first of the two streets. -/
theorem canonical_blockSearch : ∃ tree label,
    cityBlock.build = .ok blockSearch.network ∧ cityBlock.links.size < 2 ^ 32 - 1 ∧
      blockSearch.run ⟨0⟩ 28800 .forward 1000 none = .ok tree ∧
      (∀ node label, tree.label? node = some label →
        ∀ id link, blockSearch.network.links[id.index]? = some link →
          Direction.forward.nearEnd link = node →
          ∀ linkCost, blockSearch.cost.value id label.time = .ok linkCost →
            label.cost < label.cost + linkCost) ∧
      tree.settled = [⟨3⟩, ⟨2⟩, ⟨1⟩, ⟨0⟩] ∧ tree.label? ⟨3⟩ = some label ∧
      label.pred = some ⟨3⟩ ∧ ∃ id link near, label.pred = some id ∧
        blockSearch.Attains tree ⟨3⟩ label.cost id link near ∧
        ∀ id' link' near', blockSearch.Attains tree ⟨3⟩ label.cost id' link' near' →
          RoadSearch.ComesFirst .forward id link near id' link' near' := by
  have hfound : ((blockSearch.run ⟨0⟩ 28800 .forward 1000 none).toOption.any fun tree => decide (
      (tree.labels.all fun label => label.all fun label => label.cost < label.cost + 50) = true ∧
      tree.settled = [⟨3⟩, ⟨2⟩, ⟨1⟩, ⟨0⟩] ∧ (tree.label? ⟨3⟩).map Label.pred = some (some ⟨3⟩))) =
        true := by
    decide +kernel
  obtain ⟨tree, htree, hall, hsettled, hpred⟩ := exists_of_any hfound
  obtain ⟨label, hlabel, hpred⟩ := Option.map_eq_some_iff.mp hpred
  have hraises : ∀ node label, tree.label? node = some label →
      ∀ id link, blockSearch.network.links[id.index]? = some link →
        Direction.forward.nearEnd link = node →
        ∀ linkCost, blockSearch.cost.value id label.time = .ok linkCost →
          label.cost < label.cost + linkCost := by
    intro node label hlabel id link _ _ linkCost hcost
    obtain rfl := cost_blockSearch hcost
    have hknown : tree.labels[node.index]?.join = some label :=
      (Option.filter_eq_some_iff.mp hlabel).1
    obtain ⟨i, hi, heq⟩ := Array.getElem_of_mem
      (Array.mem_of_getElem? (Option.join_eq_some_iff.mp hknown))
    have hlt := Array.all_eq_true.mp hall i hi
    rw [heq] at hlt
    exact of_decide_eq_true hlt
  obtain ⟨-, -, hfirst⟩ :=
    RoadSearch.run_canonical blockSearch build_cityBlock (by decide) htree hraises
  exact ⟨tree, label, build_cityBlock, by decide, htree, hraises, hsettled, hlabel, hpred,
    hfirst ⟨3⟩ label hlabel (by decide)⟩

end ZoneSkims
