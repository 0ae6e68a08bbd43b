import ZoneSkims.Proofs.Road.Frontier
import ZoneSkims.Proofs.Road.Search

/-!
# The sweep of a search

Where every link can be followed from the labels that a search makes, the settled nodes always lie
before the frontier: none of them is dearer than what is still to come, and the links that leave
them were all followed. A search that keeps this up never fails, and its entries last to the end. Of
the arithmetic, only the laws of rounded addition are used.

* `RoadSearch.Inherits`: what has to be known of the labels.
* `RoadSearch.Swept`: what holds whenever the next entry is taken.
* `RoadSearch.Following`: what holds while the links of a node are followed.
* `RoadSearch.Swept.returns`: a search comes to its end, and what holds there.
* `RoadSearch.exists_complete`: the same for the search from a root.
-/

namespace ZoneSkims

variable {α : Type} [Scalar α]

namespace RoadSearch

variable {search : RoadSearch α} {direction : Direction} {P : NodeId → Label α → Prop}
  {root : NodeId} {rootTime maxCost : α} {state : SearchState α}

/-! ## The sweep -/

/-- What is known of the labels, `P`, lets the search follow every link, and what a link offers
inherits it. -/
structure Inherits (search : RoadSearch α) (direction : Direction)
    (P : NodeId → Label α → Prop) : Prop where
  settle : ∀ node label, P node label → P node { label with settled := true }
  exists_offer : ∀ id link near, search.network.links[id.index]? = some link →
    P (direction.nearEnd link) near → ∃ label, search.Offers direction near id link label
  offer : ∀ near id link label, P (direction.nearEnd link) near →
    search.Offers direction near id link label → P (direction.farEnd link) label

/-- What is known of a label, and its cost is finite. -/
structure Priced (P : NodeId → Label α → Prop) (node : NodeId) (label : Label α) : Prop where
  inherited : P node label
  isFinite : Scalar.isFinite label.cost = true

/-- What holds whenever the next entry is taken, and while the links `pending` of the node settled
last are still to be followed. -/
structure Swept (search : RoadSearch α) (direction : Direction) (P : NodeId → Label α → Prop)
    (root : NodeId) (maxCost : α) (pending : List LinkId) (state : SearchState α) : Prop
    extends state.Consistent search.network where
  valid : state.frontier.Valid
  priced : ∀ node label, state.labelAt node = some label → Priced P node label
  root : ∃ label, state.labelAt root = some label ∧ label.cost ≤ 0
  /-- A node with a label that is not settled is in the frontier at that cost. -/
  queued : ∀ node label, state.labelAt node = some label → label.settled = false →
    ⟨label.cost, node⟩ ∈ state.frontier.toList
  /-- No entry of the frontier is cheaper than its node. -/
  entries : ∀ entry ∈ state.frontier.toList, ∃ label, state.labelAt entry.node = some label ∧
    label.cost ≤ entry.cost
  bounded : ∀ node label, state.labelAt node = some label → label.settled = true →
    label.cost ≤ maxCost
  /-- A settled node is no dearer than what the frontier still has. -/
  behind : ∀ node label, state.labelAt node = some label → label.settled = true →
    ∀ entry ∈ state.frontier.toList, label.cost ≤ entry.cost
  /-- Every link of a settled node was followed, unless it is pending: its far end is no dearer
  than what it offers. -/
  followed : ∀ id link near offer, state.labelAt (direction.nearEnd link) = some near →
    near.settled = true → id ∉ pending → search.Offers direction near id link offer →
    offer.cost < Scalar.infinity →
    ∃ far, state.labelAt (direction.farEnd link) = some far ∧ far.cost ≤ offer.cost

/-- What holds while the links of a node that was just settled are followed. -/
structure Following (search : RoadSearch α) (direction : Direction) (P : NodeId → Label α → Prop)
    (root : NodeId) (maxCost : α) (node : NodeId) (near : Label α) (pending : List LinkId)
    (state : SearchState α) : Prop
    extends Swept search direction P root maxCost pending state where
  current : state.labelAt node = some { near with settled := true }
  priced_near : Priced P node near
  /-- The node is the dearest of the settled ones. -/
  dearest : ∀ n label, state.labelAt n = some label → label.settled = true →
    label.cost ≤ near.cost

/-- What holds at the end: the nodes that are not settled are beyond the bound. -/
structure Complete (search : RoadSearch α) (direction : Direction) (P : NodeId → Label α → Prop)
    (root : NodeId) (maxCost : α) (state : SearchState α) : Prop where
  priced : ∀ node label, state.labelAt node = some label → Priced P node label
  root : ∃ label, state.labelAt root = some label ∧ label.cost ≤ 0
  within : ∀ node label, state.labelAt node = some label → label.settled = true →
    label.cost ≤ maxCost
  beyond : ∀ node label, state.labelAt node = some label → label.settled = false →
    maxCost < label.cost
  followed : ∀ id link near offer, state.labelAt (direction.nearEnd link) = some near →
    near.settled = true → search.Offers direction near id link offer →
    offer.cost < Scalar.infinity →
    ∃ far, state.labelAt (direction.farEnd link) = some far ∧ far.cost ≤ offer.cost

theorem Swept.complete (h : Swept search direction P root maxCost [] state)
    (hbeyond : ∀ entry ∈ state.frontier.toList, maxCost < entry.cost) (frontier : Frontier α) :
    Complete search direction P root maxCost { state with frontier } where
  priced := h.priced
  root := h.root
  within := h.bounded
  beyond node label hlabel hopen := hbeyond _ (h.queued node label hlabel hopen)
  followed id link near offer hnear hsettled :=
    h.followed id link near offer hnear hsettled List.not_mem_nil

variable [LawfulScalar α]

theorem Priced.isNumber {node : NodeId} {label : Label α} (h : Priced P node label) :
    Scalar.IsNumber label.cost :=
  Scalar.isNumber_of_isFinite h.isFinite

/-! ## Taking an entry -/

namespace Swept

variable {pending : List LinkId}

theorem skip (h : Swept search direction P root maxCost pending state)
    {entry : Frontier.Entry α} {rest : Frontier α}
    (hpop : state.frontier.pop? = some (entry, rest)) (hstale : Stale state entry) :
    Swept search direction P root maxCost pending { state with frontier := rest } := by
  have hpopped := h.valid.pop hpop
  refine ⟨h.toConsistent.withFrontier rest, hpopped.valid, h.priced, h.root,
    fun node label hlabel hopen => ?_,
    fun other hother => h.entries other (hpopped.mem_of_rest hother), h.bounded,
    fun node label hlabel hsettled other hother =>
      h.behind node label hlabel hsettled other (hpopped.mem_of_rest hother), h.followed⟩
  rcases hpopped.mem_iff.mp (h.queued node label hlabel hopen) with heq | hmem
  · -- The skipped entry would be the one of its node's label.
    subst heq
    rcases hstale label hlabel with hsettled | hcost
    · rw [hopen] at hsettled
      cases hsettled
    · exact absurd hcost (Scalar.lt_irrefl _)
  · exact hmem

theorem isNumber_entry (h : Swept search direction P root maxCost pending state)
    {entry : Frontier.Entry α} (hentry : entry ∈ state.frontier.toList) :
    Scalar.IsNumber entry.cost := by
  obtain ⟨_, -, hcost⟩ := h.entries entry hentry
  exact Scalar.isNumber_right hcost

/-- A label is still there after an offer was taken, or gave way to a cheaper one. -/
theorem exists_lowered (h : Swept search direction P root maxCost pending state)
    {node other : NodeId} {label known : Label α} (hnode : node.index < state.labels.size)
    (hcost : label.cost < costOf (state.labelAt node)) (hknown : state.labelAt other = some known) :
    ∃ known', (state.lower node label).labelAt other = some known' ∧
      known'.cost ≤ known.cost := by
  by_cases hother : other = node
  · subst hother
    rw [hknown] at hcost
    exact ⟨label, SearchState.labelAt_lower_self hnode, Scalar.le_of_lt hcost⟩
  · exact ⟨known, (SearchState.labelAt_lower_of_ne hother).trans hknown,
      Scalar.le_refl (h.priced _ _ hknown).isNumber⟩

/-- A next entry that is not stale is as dear as its node, and the others are not cheaper. -/
theorem first (h : Swept search direction P root maxCost pending state)
    {entry : Frontier.Entry α} {rest : Frontier α} {label : Label α}
    (hpopped : state.frontier.Popped entry rest) (hlive : Live state entry label) :
    label.cost ≤ entry.cost ∧ entry.cost ≤ label.cost ∧
      ∀ other ∈ state.frontier.toList, entry.cost ≤ other.cost := by
  have hnumber := h.isNumber_entry hpopped.mem_top
  refine ⟨?_, ?_, fun other hother => ?_⟩
  · obtain ⟨known, hknown, hcost⟩ := h.entries entry hpopped.mem_top
    obtain rfl : label = known := Option.some.inj (hlive.known.symm.trans hknown)
    exact hcost
  · exact Scalar.le_of_not_lt (h.priced _ _ hlive.known).isNumber hnumber hlive.not_cheaper
  · exact Scalar.le_of_not_lt (h.isNumber_entry hother) hnumber
      (Frontier.Entry.not_cost_lt (hpopped.first other hother))

end Swept

theorem Swept.close (h : Swept search direction P root maxCost [] state)
    (hinherits : search.Inherits direction P) (hlinks : search.network.linkCount < 2 ^ 32)
    (hmax : Scalar.IsNumber maxCost)
    {entry : Frontier.Entry α} {rest : Frontier α} {label : Label α}
    (hpop : state.frontier.pop? = some (entry, rest)) (hlive : Live state entry label)
    (hbound : ¬ maxCost < entry.cost) :
    Following search direction P root maxCost entry.node label
      (search.network.leaving direction entry.node)
      (({ state with frontier := rest } : SearchState α).close entry.node label) := by
  have hpopped := h.valid.pop hpop
  have hlt := SearchState.lt_of_labelAt hlive.known
  have hprice := h.priced _ _ hlive.known
  obtain ⟨hle, hge, hfirst⟩ := h.first hpopped hlive
  refine { (h.toConsistent.withFrontier rest).close hlive.known hlive.isOpen with
    valid := hpopped.valid, current := SearchState.labelAt_close_self hlt, priced_near := hprice,
    priced := ?priced, root := ?root, queued := ?queued, entries := ?entries, bounded := ?bounded,
    behind := ?behind, followed := ?followed, dearest := ?dearest }
  case priced =>
    intro n known hknown
    obtain ⟨rfl, rfl⟩ | ⟨-, hknown⟩ := SearchState.labelAt_close_cases hlt hknown
    · exact ⟨hinherits.settle _ _ hprice.inherited, hprice.isFinite⟩
    · exact h.priced n known hknown
  case root =>
    obtain ⟨known, hknown, hcost⟩ := h.root
    obtain ⟨known', hknown', hsame⟩ := SearchState.exists_labelAt_close hlive.known hknown
    exact ⟨known', hknown', hsame ▸ hcost⟩
  case queued =>
    intro n known hknown hopen
    obtain ⟨rfl, rfl⟩ | ⟨hne, hknown⟩ := SearchState.labelAt_close_cases hlt hknown
    · cases hopen
    · rcases hpopped.mem_iff.mp (h.queued n known hknown hopen) with heq | hmem
      · exact absurd (congrArg Frontier.Entry.node heq) hne
      · exact hmem
  case entries =>
    intro other hother
    obtain ⟨known, hknown, hcost⟩ := h.entries other (hpopped.mem_of_rest hother)
    obtain ⟨known', hknown', hsame⟩ := SearchState.exists_labelAt_close hlive.known hknown
    exact ⟨known', hknown', hsame ▸ hcost⟩
  case bounded =>
    intro n known hknown hsettled
    obtain ⟨rfl, rfl⟩ | ⟨-, hknown⟩ := SearchState.labelAt_close_cases hlt hknown
    · exact Scalar.le_trans hle (Scalar.le_of_not_lt hmax (h.isNumber_entry hpopped.mem_top) hbound)
    · exact h.bounded n known hknown hsettled
  case behind =>
    intro n known hknown hsettled other hother
    obtain ⟨rfl, rfl⟩ | ⟨-, hknown⟩ := SearchState.labelAt_close_cases hlt hknown
    · exact Scalar.le_trans hle (hfirst other (hpopped.mem_of_rest hother))
    · exact h.behind n known hknown hsettled other (hpopped.mem_of_rest hother)
  case followed =>
    intro id link near offer hnear hsettled hpending hoffer hcost
    obtain ⟨hnode, -⟩ | ⟨-, hnear⟩ := SearchState.labelAt_close_cases hlt hnear
    · exact absurd ((Network.mem_leaving hlinks).mpr ⟨link, hoffer.found, hnode⟩) hpending
    · obtain ⟨far, hfar, hle⟩ :=
        h.followed id link near offer hnear hsettled List.not_mem_nil hoffer hcost
      obtain ⟨far', hfar', hsame⟩ := SearchState.exists_labelAt_close hlive.known hfar
      exact ⟨far', hfar', hsame ▸ hle⟩
  case dearest =>
    intro n known hknown hsettled
    obtain ⟨rfl, rfl⟩ | ⟨-, hknown⟩ := SearchState.labelAt_close_cases hlt hknown
    · exact Scalar.le_refl hprice.isNumber
    · exact Scalar.le_trans (h.behind n known hknown hsettled entry hpopped.mem_top) hge

/-! ## Following links -/

namespace Following

variable {node : NodeId} {near label : Label α} {id : LinkId} {link : Link α}
  {pending : List LinkId}

/-- An offer is not cheaper than the node that makes it. -/
theorem le_offer (h : Following search direction P root maxCost node near pending state)
    (hoffer : search.Offers direction near id link label) : near.cost ≤ label.cost := by
  obtain ⟨linkCost, hfinite, hnegative, hcost⟩ := hoffer.exists_cost
  rw [hcost]
  exact LawfulScalar.le_add (Scalar.isNumber_add h.priced_near.isNumber hfinite) hnegative

/-- Following the link of an offer is what makes its far end no dearer than the offer. -/
theorem followed_cons {after : SearchState α}
    (h : Following search direction P root maxCost node near (id :: pending) state)
    (hoffer : search.Offers direction near id link label) (hnear : direction.nearEnd link = node)
    (hsame : ∀ n known, after.labelAt n = some known → known.settled = true →
      state.labelAt n = some known)
    (hkept : ∀ n known, state.labelAt n = some known →
      ∃ known', after.labelAt n = some known' ∧ known'.cost ≤ known.cost)
    (hfar : label.cost < Scalar.infinity →
      ∃ far, after.labelAt (direction.farEnd link) = some far ∧ far.cost ≤ label.cost) :
    ∀ other link' near' offer, after.labelAt (direction.nearEnd link') = some near' →
      near'.settled = true → other ∉ pending → search.Offers direction near' other link' offer →
      offer.cost < Scalar.infinity →
      ∃ far, after.labelAt (direction.farEnd link') = some far ∧ far.cost ≤ offer.cost := by
  intro other link' near' offer hlabel hsettled hother hoffer' hfinite
  have hlabel := hsame _ near' hlabel hsettled
  by_cases hid : other = id
  · subst hid
    obtain rfl : link' = link := Option.some.inj (hoffer'.found.symm.trans hoffer.found)
    rw [hnear] at hlabel
    obtain rfl := Option.some.inj (h.current.symm.trans hlabel)
    obtain rfl := hoffer.settled.unique hoffer'
    exact hfar hfinite
  · obtain ⟨far, hknown, hle⟩ := h.followed other link' near' offer hlabel hsettled
      (fun hmem => (List.mem_cons.mp hmem).elim hid hother) hoffer' hfinite
    obtain ⟨far', hknown', hle'⟩ := hkept _ far hknown
    exact ⟨far', hknown', Scalar.le_trans hle' hle⟩

/-- Nothing changes when an offer is refused: what is known of the far end is not dearer. -/
theorem refuse
    (h : Following search direction P root maxCost node near (id :: pending) state)
    (hoffer : search.Offers direction near id link label) (hnear : direction.nearEnd link = node)
    (hcost : ¬ label.cost < costOf (state.labelAt (direction.farEnd link))) :
    Following search direction P root maxCost node near pending state := by
  refine { h with followed := ?followed }
  refine h.followed_cons hoffer hnear (fun _ _ hknown _ => hknown)
    (fun n known hknown => ⟨known, hknown, Scalar.le_refl (h.priced n known hknown).isNumber⟩)
    fun hfinite => ?_
  cases hknown : state.labelAt (direction.farEnd link) with
  | none =>
    rw [hknown] at hcost
    exact absurd hfinite hcost
  | some known =>
    rw [hknown] at hcost
    exact ⟨known, rfl, Scalar.le_of_not_lt (Scalar.isNumber_left (Scalar.le_of_lt hfinite))
      (h.priced _ _ hknown).isNumber hcost⟩

theorem priced_offer
    (h : Following search direction P root maxCost node near pending state)
    (hinherits : search.Inherits direction P) (hoffer : search.Offers direction near id link label)
    (hnear : direction.nearEnd link = node)
    (hcost : label.cost < costOf (state.labelAt (direction.farEnd link))) :
    Priced P (direction.farEnd link) label := by
  subst hnear
  refine ⟨hinherits.offer near id link label h.priced_near.inherited hoffer, ?_⟩
  refine Scalar.isFinite_of_le_of_lt_infinity h.priced_near.isFinite (h.le_offer hoffer) ?_
  cases hknown : state.labelAt (direction.farEnd link) with
  | none => rwa [hknown] at hcost
  | some known =>
    rw [hknown] at hcost
    exact Scalar.lt_trans hcost (Scalar.lt_infinity_of_isFinite (h.priced _ _ hknown).isFinite)

/-- Taking an offer lowers the label of the far end, which is not settled. -/
theorem take
    (h : Following search direction P root maxCost node near (id :: pending) state)
    (hinherits : search.Inherits direction P) (hoffer : search.Offers direction near id link label)
    (hnear : direction.nearEnd link = node)
    (hfar : (direction.farEnd link).index < state.labels.size)
    (hopen : state.Open (direction.farEnd link))
    (hcost : label.cost < costOf (state.labelAt (direction.farEnd link))) :
    Following search direction P root maxCost node near pending
      (state.lower (direction.farEnd link) label) := by
  have hprice := h.priced_offer hinherits hoffer hnear hcost
  have hunsettled := hoffer.unsettled
  have hpush := Frontier.toList_push h.valid ⟨label.cost, direction.farEnd link⟩
  have hsame : ∀ n known, (state.lower (direction.farEnd link) label).labelAt n = some known →
      known.settled = true → state.labelAt n = some known := fun _ _ =>
    SearchState.labelAt_of_lower hfar hunsettled
  have hne : node ≠ direction.farEnd link := by
    rintro rfl
    exact absurd (hopen _ h.current) nofun
  refine { h.toConsistent.lower hfar hopen hunsettled with
    valid := h.valid.push _, priced := ?priced, root := ?root, queued := ?queued,
    entries := ?entries, behind := ?behind, followed := ?followed
    bounded := fun n known hknown hsettled =>
      h.bounded n known (hsame n known hknown hsettled) hsettled
    current := (SearchState.labelAt_lower_of_ne hne).trans h.current
    priced_near := h.priced_near
    dearest := fun n known hknown hsettled =>
      h.dearest n known (hsame n known hknown hsettled) hsettled }
  case priced =>
    intro n known hknown
    obtain ⟨rfl, rfl⟩ | ⟨-, hknown⟩ := SearchState.labelAt_lower_cases hfar hknown
    · exact hprice
    · exact h.priced n known hknown
  case root =>
    obtain ⟨known, hknown, hle⟩ := h.root
    obtain ⟨known', hknown', hle'⟩ := h.exists_lowered hfar hcost hknown
    exact ⟨known', hknown', Scalar.le_trans hle' hle⟩
  case queued =>
    intro n known hknown hknownOpen
    refine hpush.mem_iff.mpr ?_
    obtain ⟨rfl, rfl⟩ | ⟨-, hknown⟩ := SearchState.labelAt_lower_cases hfar hknown
    · exact List.mem_cons_self
    · exact List.mem_cons_of_mem _ (h.queued n known hknown hknownOpen)
  case entries =>
    intro entry hentry
    rcases List.mem_cons.mp (hpush.mem_iff.mp hentry) with rfl | hentry
    · exact ⟨label, SearchState.labelAt_lower_self hfar, Scalar.le_refl hprice.isNumber⟩
    · obtain ⟨known, hknown, hle⟩ := h.entries entry hentry
      obtain ⟨known', hknown', hle'⟩ := h.exists_lowered hfar hcost hknown
      exact ⟨known', hknown', Scalar.le_trans hle' hle⟩
  case behind =>
    intro n known hknown hsettled entry hentry
    have hknown := hsame n known hknown hsettled
    rcases List.mem_cons.mp (hpush.mem_iff.mp hentry) with rfl | hentry
    · exact Scalar.le_trans (h.dearest n known hknown hsettled) (h.le_offer hoffer)
    · exact h.behind n known hknown hsettled entry hentry
  case followed =>
    exact h.followed_cons hoffer hnear hsame (fun n known => h.exists_lowered hfar hcost)
      fun _ => ⟨label, SearchState.labelAt_lower_self hfar, Scalar.le_refl hprice.isNumber⟩

/-- Following a link goes well, and adds one entry to the frontier at most. -/
theorem relax
    (h : Following search direction P root maxCost node near (id :: pending) state)
    (hinherits : search.Inherits direction P) (hsound : search.network.Sound)
    (hlink : search.network.links[id.index]? = some link) (hnear : direction.nearEnd link = node) :
    Returns (search.relax direction near state id) fun state' =>
      Following search direction P root maxCost node near pending state' ∧
        state'.settled = state.settled ∧
        state'.frontier.toList.length ≤ state.frontier.toList.length + 1 := by
  subst hnear
  obtain ⟨label, hoffer⟩ := hinherits.exists_offer id link near hlink h.priced_near.inherited
  have hfar : (direction.farEnd link).index < state.labels.size :=
    h.size ▸ of_decide_eq_true (hsound.ends _ _ hlink direction)
  refine (returns_relax hoffer hfar fun known hknown hsettled => ?_).mono fun state' hrelaxed => ?_
  · exact Scalar.not_lt_of_le
      (Scalar.le_trans (h.dearest _ known hknown hsettled) (h.le_offer hoffer))
  · cases hrelaxed with
    | refused hoffer' _ hcost =>
      obtain rfl := Option.some.inj (hlink.symm.trans hoffer'.found)
      exact ⟨h.refuse hoffer' rfl hcost, rfl, Nat.le_succ _⟩
    | @taken _ label' hoffer' hfar' hopen hcost =>
      obtain rfl := Option.some.inj (hlink.symm.trans hoffer'.found)
      refine ⟨h.take hinherits hoffer' rfl hfar' hopen hcost, rfl, Nat.le_of_eq ?_⟩
      exact (Frontier.toList_push h.valid ⟨label'.cost, _⟩).length_eq

end Following

/-! ## The whole sweep -/

/-- Settling the node of the next entry and following its links goes well. -/
theorem Swept.settle (h : Swept search direction P root maxCost [] state)
    (hinherits : search.Inherits direction P) (hsound : search.network.Sound)
    (hlinks : search.network.linkCount < 2 ^ 32) (hmax : Scalar.IsNumber maxCost)
    {entry : Frontier.Entry α} {rest : Frontier α} {label : Label α}
    (hpop : state.frontier.pop? = some (entry, rest)) (hlive : Live state entry label)
    (hbound : ¬ maxCost < entry.cost) :
    Returns (search.settle direction none { state with frontier := rest } entry.node label)
      fun state' => Swept search direction P root maxCost [] state' ∧
        state'.settled = entry.node :: state.settled ∧
        state'.frontier.toList.length ≤
          rest.toList.length + (search.network.leaving direction entry.node).length := by
  have hnode : search.network.contains entry.node = true :=
    decide_eq_true (h.size ▸ SearchState.lt_of_labelAt hlive.known)
  rw [settle_eq hsound hnode, if_neg nofun]
  refine (Returns.foldlM (I := fun done state' => ∃ pending,
    search.network.leaving direction entry.node = done ++ pending ∧
      Following search direction P root maxCost entry.node label pending state' ∧
      state'.settled = entry.node :: state.settled ∧
      state'.frontier.toList.length ≤ rest.toList.length + done.length)
    ⟨_, rfl, h.close hinherits hlinks hmax hpop hlive hbound, rfl, Nat.le_refl _⟩ ?_).mono ?_
  · rintro done id pending before hleaving ⟨pending', hpending', hbefore, hsettled, hlength⟩
    obtain rfl : id :: pending = pending' :=
      List.append_cancel_left (hleaving.symm.trans hpending')
    obtain ⟨link, hlink, hnear⟩ := (Network.mem_leaving hlinks).mp
      (show id ∈ search.network.leaving direction entry.node by rw [hleaving]; simp)
    refine (hbefore.relax hinherits hsound hlink hnear).mono fun after ⟨hafter, hsame, hmore⟩ => ?_
    refine ⟨pending, by rw [hleaving, List.append_assoc]; rfl, hafter, hsame.trans hsettled, ?_⟩
    rw [List.length_append, List.length_singleton]
    omega
  · rintro after ⟨pending, hpending, hafter, hsettled, hlength⟩
    obtain rfl : pending = [] := List.self_eq_append_right.mp hpending
    exact ⟨hafter.toSwept, hsettled, hlength⟩

/-- A search comes to its end when every entry of the frontier and every link that is still to be
followed can be paid for. -/
theorem Swept.returns (hinherits : search.Inherits direction P) (hsound : search.network.Sound)
    (hlinks : search.network.linkCount < 2 ^ 32) (hmax : Scalar.IsNumber maxCost) (entries : Nat) :
    ∀ state, Swept search direction P root maxCost [] state →
      state.frontier.toList.length + search.network.openLinks direction state.settled ≤ entries →
      Returns (search.explore direction maxCost none entries state)
        (Complete search direction P root maxCost) := by
  induction entries with
  | zero =>
    intro state h hbudget
    refine Returns.pure (h.complete (fun entry hentry => ?_) state.frontier)
    exact absurd (List.length_pos_of_mem hentry) (by omega)
  | succ entries ih =>
    intro state h hbudget
    cases hpop : state.frontier.pop? with
    | none =>
      rw [explore_done hpop]
      refine Returns.pure (h.complete (fun entry hentry => ?_) state.frontier)
      rw [Frontier.pop?_eq_none.mp hpop] at hentry
      exact absurd hentry List.not_mem_nil
    | some popped =>
      obtain ⟨entry, rest⟩ := popped
      have hpopped := h.valid.pop hpop
      have hlength : state.frontier.toList.length = rest.toList.length + 1 :=
        hpopped.perm.length_eq
      obtain hstale | ⟨label, hlive⟩ := stale_or_live state entry
      · rw [explore_skip hpop hstale]
        refine ih _ (h.skip hpop hstale) ?_
        show rest.toList.length + search.network.openLinks direction state.settled ≤ entries
        omega
      · obtain ⟨-, -, hfirst⟩ := h.first hpopped hlive
        by_cases hbound : maxCost < entry.cost
        · rw [explore_stop hpop hlive hbound]
          exact Returns.pure (h.complete (fun other hother =>
            Scalar.lt_of_lt_of_le hbound (hfirst other hother)) rest)
        · rw [explore_settle hpop hlive hbound]
          refine Returns.bind (h.settle hinherits hsound hlinks hmax hpop hlive hbound)
            fun state' ⟨h', hsettled, hlength'⟩ => ?_
          rw [if_neg nofun]
          refine ih state' h' ?_
          have hopen := search.network.openLinks_cons direction (h.not_mem_settled hlive.isOpen)
          rw [hsettled]
          omega

/-! ## The search from a root -/

theorem start_swept (hroot : search.network.contains root = true)
    (hP : P root (rootLabel rootTime)) :
    Swept search direction P root maxCost [] (search.start root rootTime) := by
  have hzero : Scalar.IsNumber (0 : α) := Scalar.isNumber_of_isFinite LawfulScalar.isFinite_zero
  have hunsettled : ∀ node label, (search.start root rootTime).labelAt node = some label →
      label.settled = false := by
    intro node label hlabel
    obtain ⟨-, rfl⟩ := (labelAt_start hroot).mp hlabel
    rfl
  have hentries : (search.start root rootTime).frontier.toList = [⟨0, root⟩] := rfl
  have hrootLabel : (search.start root rootTime).labelAt root = some (rootLabel rootTime) :=
    (labelAt_start hroot).mpr ⟨rfl, rfl⟩
  refine { consistent_start hroot with
    valid := Frontier.Valid.empty.push _
    priced := fun node label hlabel => ?_
    root := ⟨_, hrootLabel, Scalar.le_refl hzero⟩
    queued := fun node label hlabel _ => ?_
    entries := fun entry hentry => ?_
    bounded := fun node label hlabel hsettled => ?_
    behind := fun node label hlabel hsettled => ?_
    followed := fun id link near offer hnear hsettled => ?_ }
  · obtain ⟨rfl, rfl⟩ := (labelAt_start hroot).mp hlabel
    exact ⟨hP, LawfulScalar.isFinite_zero⟩
  · obtain ⟨rfl, rfl⟩ := (labelAt_start hroot).mp hlabel
    rw [hentries]
    exact List.mem_cons_self
  · rw [hentries] at hentry
    obtain rfl := List.mem_singleton.mp hentry
    exact ⟨_, hrootLabel, Scalar.le_refl hzero⟩
  · exact absurd hsettled (by rw [hunsettled node label hlabel]; exact Bool.false_ne_true)
  · exact absurd hsettled (by rw [hunsettled node label hlabel]; exact Bool.false_ne_true)
  · exact absurd hsettled (by rw [hunsettled _ near hnear]; exact Bool.false_ne_true)

omit [LawfulScalar α] in
/-- A search takes an entry for the root, and at most one for every link. -/
theorem start_budget (search : RoadSearch α) (root : NodeId) (rootTime : α)
    (direction : Direction) : (search.start root rootTime).frontier.toList.length +
      search.network.openLinks direction [] ≤ search.network.linkCount + 1 := by
  show 1 + search.network.openLinks direction [] ≤ _
  rw [Nat.add_comm]
  exact Nat.succ_le_succ List.countP_le_length

/-- The search from a root succeeds when every link can be followed from the labels it makes. -/
theorem exists_complete (hinherits : search.Inherits direction P) (hsound : search.network.Sound)
    (hlinks : search.network.linkCount < 2 ^ 32) (hroot : search.network.contains root = true)
    (hP : P root (rootLabel rootTime)) (hmax : Scalar.IsNumber maxCost) :
    ∃ state, search.run root rootTime direction maxCost none =
        .ok (state.tree root direction rootTime) ∧
      Complete search direction P root maxCost state := by
  obtain ⟨state, hstate, hcomplete⟩ :=
    Swept.returns hinherits hsound hlinks hmax _ _ (start_swept hroot hP)
      (start_budget search root rootTime direction)
  exact ⟨state, run_eq_ok.mpr ⟨hroot, state, hstate, rfl⟩, hcomplete⟩

end RoadSearch

end ZoneSkims
