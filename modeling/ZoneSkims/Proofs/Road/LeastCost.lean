import ZoneSkims.Proofs.Road.Sweep
import ZoneSkims.Proofs.Scalar.Double

/-!
# Least costs

With a cost of its own for every link, whatever the time, a search settles exactly the nodes that
some path reaches within the bound, each at the least cost of all paths to it.

* `RoadSearch.Steady`: what is asked of the link functions.
* `RoadSearch.pathCost`: the cost of a path, added up link by link from the root.
* `RoadSearch.Complete.exists_settled`: a path within the bound is no cheaper than its last node.
* `RoadSearch.run_least_cost`: the main result.
-/

namespace ZoneSkims

variable {α : Type} [Scalar α]

namespace RoadSearch

/-- Travel times are finite and not negative at every time, and so are costs, which are the same at
every time. -/
structure Steady (search : RoadSearch α) (linkCost : LinkId → α) : Prop where
  travelTime : ∀ id : LinkId, id.index < search.network.linkCount → ∀ time, ∃ value,
    search.travelTime.value id time = .ok value ∧ Scalar.isFinite value = true ∧ 0 ≤ value
  cost : ∀ id : LinkId, id.index < search.network.linkCount → ∀ time,
    search.cost.value id time = .ok (linkCost id)
  isFinite : ∀ id : LinkId, id.index < search.network.linkCount →
    Scalar.isFinite (linkCost id) = true
  nonnegative : ∀ id : LinkId, id.index < search.network.linkCount → 0 ≤ linkCost id

/-- The cost of links, added up from the root on. -/
def pathCost (linkCost : LinkId → α) (ids : List LinkId) : α :=
  ids.foldl (fun total id => total + linkCost id) 0

theorem pathCost_concat (linkCost : LinkId → α) (ids : List LinkId) (id : LinkId) :
    pathCost linkCost (ids ++ [id]) = pathCost linkCost ids + linkCost id := by
  rw [pathCost, List.foldl_append]
  rfl

/-- The label has the cost of some path. -/
def HasPathCost (search : RoadSearch α) (direction : Direction) (root : NodeId)
    (linkCost : LinkId → α) (node : NodeId) (label : Label α) : Prop :=
  ∃ ids nodes, search.network.Leads direction root ids nodes node ∧
    pathCost linkCost ids = label.cost

variable {search : RoadSearch α} {direction : Direction} {root : NodeId} {maxCost : α}
  {linkCost : LinkId → α} {state : SearchState α}

namespace Steady

theorem cost_of_offer (h : search.Steady linkCost) {near label : Label α} {id : LinkId}
    {link : Link α} (hoffer : search.Offers direction near id link label) :
    label.cost = near.cost + linkCost id := by
  obtain ⟨hlink, travelTime, cost, hvalues, rfl⟩ := hoffer
  obtain ⟨-, hcost⟩ := ok_linkValues search id near.time _ hvalues
  rw [h.cost id (Array.getElem?_eq_some_iff.mp hlink).1 near.time] at hcost
  cases hcost
  rfl

variable [LawfulScalar α]

theorem le_add (h : search.Steady linkCost) {id : LinkId} {link : Link α} {a : α}
    (hlink : search.network.links[id.index]? = some link) (ha : Scalar.IsNumber a) :
    a ≤ a + linkCost id := by
  have hid := (Array.getElem?_eq_some_iff.mp hlink).1
  exact Scalar.le_add_of_isFinite ha (h.isFinite id hid) (h.nonnegative id hid)

theorem add_le_add (h : search.Steady linkCost) {id : LinkId} {link : Link α} {a b : α}
    (hlink : search.network.links[id.index]? = some link) (hab : a ≤ b) :
    a + linkCost id ≤ b + linkCost id :=
  LawfulScalar.add_le_add_right (h.isFinite id (Array.getElem?_eq_some_iff.mp hlink).1) hab

/-- No path has a cost below 0. -/
theorem zero_le_pathCost (h : search.Steady linkCost) {ids : List LinkId}
    {nodes : List NodeId} {node : NodeId}
    (hleads : search.network.Leads direction root ids nodes node) : 0 ≤ pathCost linkCost ids := by
  induction hleads with
  | root => exact Scalar.le_refl (Scalar.isNumber_of_isFinite LawfulScalar.isFinite_zero)
  | follow _ hlink ih =>
    rw [pathCost_concat]
    exact Scalar.le_trans ih (h.le_add hlink (Scalar.isNumber_right ih))

theorem exists_offer (h : search.Steady linkCost) (direction : Direction) {id : LinkId}
    {link : Link α} (hlink : search.network.links[id.index]? = some link) (near : Label α) :
    ∃ label, search.Offers direction near id link label := by
  have hid := (Array.getElem?_eq_some_iff.mp hlink).1
  obtain ⟨value, hvalue, hfinite, hnonnegative⟩ := h.travelTime id hid near.time
  exact ⟨_, hlink, value, linkCost id, linkValues_eq hvalue (h.cost id hid near.time) hfinite
    (Scalar.not_lt_of_le hnonnegative) (h.isFinite id hid)
    (Scalar.not_lt_of_le (h.nonnegative id hid)), rfl⟩

/-- What a link offers has the cost of a path that is longer by the link. -/
theorem inherits (h : search.Steady linkCost) (direction : Direction) (root : NodeId) :
    search.Inherits direction (HasPathCost search direction root linkCost) where
  settle _ _ := id
  exists_offer _ _ near hlink _ := h.exists_offer direction hlink near
  offer near id link label hnear hoffer := by
    obtain ⟨ids, nodes, hleads, hpath⟩ := hnear
    refine ⟨ids ++ [id], _, hleads.follow hoffer.found, ?_⟩
    rw [pathCost_concat, hpath, h.cost_of_offer hoffer]

end Steady

variable [LawfulScalar α]

theorem Complete.followed_link
    (h : Complete search direction (HasPathCost search direction root linkCost) root maxCost state)
    (hsteady : search.Steady linkCost) {id : LinkId} {link : Link α} {near : Label α}
    (hlink : search.network.links[id.index]? = some link)
    (hnear : state.labelAt (direction.nearEnd link) = some near) (hsettled : near.settled = true)
    (hcost : near.cost + linkCost id < Scalar.infinity) :
    ∃ far, state.labelAt (direction.farEnd link) = some far ∧
      far.cost ≤ near.cost + linkCost id := by
  obtain ⟨offer, hoffer⟩ := hsteady.exists_offer direction hlink near
  rw [← hsteady.cost_of_offer hoffer] at hcost ⊢
  exact h.followed id link near offer hnear hsettled hoffer hcost

/-- A node that a path reaches within the bound is settled, and not dearer than the path. -/
theorem Complete.exists_settled
    (h : Complete search direction (HasPathCost search direction root linkCost) root maxCost state)
    (hsteady : search.Steady linkCost) {ids : List LinkId} {nodes : List NodeId} {node : NodeId}
    (hleads : search.network.Leads direction root ids nodes node)
    (hfinite : Scalar.isFinite (pathCost linkCost ids) = true)
    (hbound : pathCost linkCost ids ≤ maxCost) :
    ∃ label, state.labelAt node = some label ∧ label.settled = true ∧
      label.cost ≤ pathCost linkCost ids := by
  -- A label within the bound is settled.
  have hsettled : ∀ n label, state.labelAt n = some label → label.cost ≤ maxCost →
      label.settled = true := by
    intro n label hlabel hcost
    cases hflag : label.settled with
    | true => rfl
    | false => exact absurd (h.beyond n label hlabel hflag) (Scalar.not_lt_of_le hcost)
  induction hleads with
  | root =>
    obtain ⟨label, hlabel, hcost⟩ := h.root
    exact ⟨label, hlabel, hsettled _ _ hlabel (Scalar.le_trans hcost hbound), hcost⟩
  | @follow ids nodes id link hleads hlink ih =>
    rw [pathCost_concat] at *
    have hzero := hsteady.zero_le_pathCost hleads
    have hstep := hsteady.le_add hlink (Scalar.isNumber_right hzero)
    obtain ⟨near, hnear, hnearSettled, hnearCost⟩ := ih
      (Scalar.isFinite_of_between LawfulScalar.isFinite_zero hzero hstep hfinite)
      (Scalar.le_trans hstep hbound)
    have hmore : near.cost + linkCost id ≤ pathCost linkCost ids + linkCost id :=
      hsteady.add_le_add hlink hnearCost
    obtain ⟨far, hfar, hfarCost⟩ := h.followed_link hsteady hlink hnear hnearSettled
      (Scalar.lt_of_le_of_lt hmore (Scalar.lt_infinity_of_isFinite hfinite))
    have hcost := Scalar.le_trans hfarCost hmore
    exact ⟨far, hfar, hsettled _ _ hfar (Scalar.le_trans hcost hbound), hcost⟩

/-- A settled node is not dearer than any path to it. -/
theorem Complete.cost_le
    (h : Complete search direction (HasPathCost search direction root linkCost) root maxCost state)
    (hsteady : search.Steady linkCost) (hmax : Scalar.IsNumber maxCost) {ids : List LinkId}
    {nodes : List NodeId} {node : NodeId} {label : Label α}
    (hleads : search.network.Leads direction root ids nodes node)
    (hlabel : state.labelAt node = some label) (hsettled : label.settled = true) :
    label.cost ≤ pathCost linkCost ids := by
  have hzero := hsteady.zero_le_pathCost hleads
  have hnumber := Scalar.isNumber_right hzero
  have hwithin := h.within node label hlabel hsettled
  by_cases hbound : pathCost linkCost ids ≤ maxCost
  · by_cases hfinite : Scalar.isFinite (pathCost linkCost ids) = true
    · obtain ⟨known, hknown, -, hcost⟩ := h.exists_settled hsteady hleads hfinite hbound
      obtain rfl : label = known := Option.some.inj (hlabel.symm.trans hknown)
      exact hcost
    · -- A path whose cost left the finite scalars is infinitely dear.
      have hinfinite : ¬ pathCost linkCost ids < Scalar.infinity := fun hlt =>
        hfinite (Scalar.isFinite_of_le_of_lt_infinity LawfulScalar.isFinite_zero hzero hlt)
      exact Scalar.le_trans
        (LawfulScalar.le_infinity (h.priced node label hlabel).isNumber)
        (Scalar.le_of_not_lt hnumber Scalar.isNumber_infinity hinfinite)
  · exact Scalar.le_trans hwithin (Scalar.le_of_lt (Scalar.lt_of_not_le hnumber hmax hbound))

theorem swept_start (hroot : search.network.contains root = true) (rootTime : α)
    (direction : Direction) :
    Swept search direction (HasPathCost search direction root linkCost) root maxCost []
      (search.start root rootTime) :=
  start_swept hroot ⟨[], [root], .root, rfl⟩

theorem Swept.explore (hsteady : search.Steady linkCost) (hsound : search.network.Sound)
    (hlinks : search.network.linkCount < 2 ^ 32) (hmax : Scalar.IsNumber maxCost) (entries : Nat) :
    ∀ state,
      Swept search direction (HasPathCost search direction root linkCost) root maxCost [] state →
      state.frontier.toList.length + search.network.openLinks direction state.settled ≤ entries →
      Returns (search.explore direction maxCost none entries state)
        (Complete search direction (HasPathCost search direction root linkCost) root maxCost) :=
  Swept.returns (hsteady.inherits direction root) hsound hlinks hmax entries

/-- In a built network with steady link functions, a search succeeds. It settles a node exactly when
some path from the root has a finite cost within the bound, at a cost that one such path has and
none goes below. -/
theorem run_least_cost {draft : NetworkDraft α} (search : RoadSearch α)
    (hbuild : draft.build = .ok search.network) (hlinks : draft.links.size < 2 ^ 32 - 1)
    {linkCost : LinkId → α} (hsteady : search.Steady linkCost) {root : NodeId}
    (hroot : search.network.contains root = true) (rootTime : α) (direction : Direction)
    {maxCost : α} (hmax : Scalar.IsNumber maxCost) :
    ∃ tree, search.run root rootTime direction maxCost none = .ok tree ∧ ∀ node : NodeId,
      ((tree.cost? node).isSome = true ↔ ∃ ids nodes,
        search.network.Leads direction root ids nodes node ∧
          Scalar.isFinite (pathCost linkCost ids) = true ∧ pathCost linkCost ids ≤ maxCost) ∧
      ∀ cost, tree.cost? node = some cost →
        (∃ ids nodes, search.network.Leads direction root ids nodes node ∧
          pathCost linkCost ids = cost ∧ Scalar.isFinite cost = true ∧ cost ≤ maxCost) ∧
        ∀ ids nodes, search.network.Leads direction root ids nodes node →
          cost ≤ pathCost linkCost ids := by
  obtain ⟨-, hsound⟩ := NetworkDraft.sound_build hbuild
  have hcount : search.network.linkCount < 2 ^ 32 :=
    NetworkDraft.linkCount_lt_of_build hbuild hlinks
  obtain ⟨state, hstate, hcomplete⟩ := Swept.explore hsteady hsound hcount hmax _ _
    (swept_start hroot rootTime direction) (start_budget search root rootTime direction)
  refine ⟨state.tree root direction rootTime, by rw [run_eq hroot, hstate]; rfl, fun node => ?_⟩
  refine ⟨⟨fun hsome => ?_, ?_⟩, fun cost hcost => ?_⟩
  · obtain ⟨cost, hcost⟩ := Option.isSome_iff_exists.mp hsome
    obtain ⟨label, hlabel, hsettled, rfl⟩ := SearchState.cost?_tree.mp hcost
    obtain ⟨⟨ids, nodes, hleads, hpath⟩, hfinite⟩ := hcomplete.priced node label hlabel
    exact ⟨ids, nodes, hleads, hpath ▸ hfinite,
      hpath ▸ hcomplete.within node label hlabel hsettled⟩
  · rintro ⟨ids, nodes, hleads, hfinite, hbound⟩
    obtain ⟨label, hlabel, hsettled, -⟩ :=
      hcomplete.exists_settled hsteady hleads hfinite hbound
    exact Option.isSome_iff_exists.mpr
      ⟨label.cost, SearchState.cost?_tree.mpr ⟨label, hlabel, hsettled, rfl⟩⟩
  · obtain ⟨label, hlabel, hsettled, rfl⟩ := SearchState.cost?_tree.mp hcost
    obtain ⟨⟨ids, nodes, hleads, hpath⟩, hfinite⟩ := hcomplete.priced node label hlabel
    exact ⟨⟨ids, nodes, hleads, hpath, hfinite, hcomplete.within node label hlabel hsettled⟩,
      fun ids nodes hleads => hcomplete.cost_le hsteady hmax hleads hlabel hsettled⟩

end RoadSearch

/-! ## An example -/

/-- The crossings in free flow, with the time as cost. -/
def crossingSearch : RoadSearch Float where
  network := crossings.layOut
  travelTime := .freeFlow crossings.layOut
  cost := .timeCost (.freeFlow crossings.layOut)

/-- The seconds on each link. -/
def crossingSeconds (id : LinkId) : Float := if id = ⟨2⟩ then 180 else 50

theorem steady_crossingSearch : crossingSearch.Steady crossingSeconds := by
  have hvalue : ∀ id : LinkId, id.index < 3 → ∀ time,
      crossingSearch.cost.value id time = .ok (crossingSeconds id) := by
    intro id hid time
    obtain h | h | h : id.index = 0 ∨ id.index = 1 ∨ id.index = 2 := by omega
    · obtain rfl : id = ⟨0⟩ := Id.index_injective h
      rfl
    · obtain rfl : id = ⟨1⟩ := Id.index_injective h
      rfl
    · obtain rfl : id = ⟨2⟩ := Id.index_injective h
      rfl
  have hseconds : ∀ id, Scalar.isFinite (crossingSeconds id) = true ∧ 0 ≤ crossingSeconds id := by
    intro id
    unfold crossingSeconds
    split
    · decide
    · decide
  exact ⟨fun id hid time => ⟨_, hvalue id hid time, hseconds id⟩, hvalue,
    fun id _ => (hseconds id).1, fun id _ => (hseconds id).2⟩

/-- With a bound between the way around and the long street, all crossings are settled. -/
theorem least_cost_crossings : crossings.build = .ok crossingSearch.network ∧
    crossings.links.size < 2 ^ 32 - 1 ∧ crossingSearch.Steady crossingSeconds ∧
      crossingSearch.network.contains ⟨0⟩ = true ∧ Scalar.IsNumber (150 : Float) ∧
      ∃ tree, crossingSearch.run ⟨0⟩ 28800 .forward 150 none = .ok tree ∧
        (tree.cost? ⟨2⟩).isSome = true ∧ ∀ node : NodeId,
        ((tree.cost? node).isSome = true ↔ ∃ ids nodes,
          crossingSearch.network.Leads .forward ⟨0⟩ ids nodes node ∧
            Scalar.isFinite (RoadSearch.pathCost crossingSeconds ids) = true ∧
              RoadSearch.pathCost crossingSeconds ids ≤ 150) ∧
        ∀ cost, tree.cost? node = some cost →
          (∃ ids nodes, crossingSearch.network.Leads .forward ⟨0⟩ ids nodes node ∧
            RoadSearch.pathCost crossingSeconds ids = cost ∧
              Scalar.isFinite cost = true ∧ cost ≤ 150) ∧
          ∀ ids nodes, crossingSearch.network.Leads .forward ⟨0⟩ ids nodes node →
            cost ≤ RoadSearch.pathCost crossingSeconds ids := by
  have hroot : crossingSearch.network.contains ⟨0⟩ = true := by decide
  have hmax : Scalar.IsNumber (150 : Float) := rfl
  obtain ⟨tree, htree, hleast⟩ := RoadSearch.run_least_cost crossingSearch build_crossings
    (by decide) steady_crossingSearch hroot 28800 .forward hmax
  have hfirst : crossingSearch.network.links[(⟨0⟩ : LinkId).index]? =
      some { LinkTraits.car 500 10 with source := ⟨0⟩, target := ⟨1⟩ } := rfl
  have hsecond : crossingSearch.network.links[(⟨1⟩ : LinkId).index]? =
      some { LinkTraits.car 500 10 with source := ⟨1⟩, target := ⟨2⟩ } := rfl
  have hhalf : crossingSearch.network.Leads .forward ⟨0⟩ ([] ++ [⟨0⟩]) ([⟨0⟩] ++ [⟨1⟩]) ⟨1⟩ :=
    .follow .root hfirst
  have haround : crossingSearch.network.Leads .forward ⟨0⟩ ([⟨0⟩] ++ [⟨1⟩]) ([⟨0⟩, ⟨1⟩] ++ [⟨2⟩])
      ⟨2⟩ := .follow hhalf hsecond
  have hreached := (hleast ⟨2⟩).1.mpr ⟨_, _, haround, by decide +kernel, by decide +kernel⟩
  exact ⟨build_crossings, by decide, steady_crossingSearch, hroot, hmax, tree, htree, hreached,
    hleast⟩

end ZoneSkims
