import ZoneSkims.Proofs.Road.Search

/-!
# Paths of a tree

The links that a tree gives for a settled node are a path between the root and the node, and who
walks along it from the root comes to exactly what the label of the node says. Link functions may
depend on the time.

* `RoadSearch.replay`: what a walk comes to.
* `RoadSearch.Traced`: every label is the root's or was offered by a node that was settled before.
* `RoadSearch.Traced.exists_way`: the way of a settled node.
* `RoadSearch.tree_path_replays`: the main result.
-/

namespace ZoneSkims

variable {α : Type}

/-! ## Walks -/

/-- What has come together on the way from the root. -/
structure Progress (α : Type) where
  cost : α
  time : α
  distance : α

def Label.progress (label : Label α) : Progress α :=
  { cost := label.cost, time := label.time, distance := label.distance }

namespace PathTree

variable {tree : PathTree α} {network : Network α} {steps : Nat} {node : NodeId} {label : Label α}

theorem trace?_start (hlabel : tree.labels[node.index]?.join = some label)
    (hpred : label.pred = none) : tree.trace? network (steps + 1) node = some [] := by
  simp [trace?, hlabel, hpred]

theorem trace?_follow {id : LinkId} {link : Link α} {ids : List LinkId}
    (hlabel : tree.labels[node.index]?.join = some label) (hpred : label.pred = some id)
    (hlink : network.links[id.index]? = some link)
    (hrest : tree.trace? network steps (tree.direction.nearEnd link) = some ids) :
    tree.trace? network (steps + 1) node = some (id :: ids) := by
  simp [trace?, hlabel, hpred, hlink, hrest]

end PathTree

variable [Scalar α]

/-- Walks along one link, which is entered, or backward left, at the time that was reached. -/
def RoadSearch.walk (search : RoadSearch α) (direction : Direction) (progress : Progress α)
    (id : LinkId) : Checked (Progress α) := do
  let link ← search.network.link id
  let travelTime ← search.travelTime.value id progress.time
  let linkCost ← search.cost.value id progress.time
  return {
    cost := progress.cost + linkCost
    time := direction.after progress.time travelTime
    distance := progress.distance + link.length }

/-- Walks along links from the root outward. -/
def RoadSearch.replay (search : RoadSearch α) (direction : Direction) (rootTime : α)
    (ids : List LinkId) : Checked (Progress α) :=
  ids.foldlM (search.walk direction) { cost := 0, time := rootTime, distance := 0 }

namespace RoadSearch

variable {search : RoadSearch α} {direction : Direction} {root : NodeId} {rootTime : α}
  {maxCost : α} {target : Option NodeId} {state : SearchState α}

theorem Offers.walk {near label : Label α} {id : LinkId} {link : Link α}
    (h : search.Offers direction near id link label) :
    search.walk direction near.progress id = .ok label.progress := by
  obtain ⟨hlink, travelTime, linkCost, hvalues, rfl⟩ := h
  obtain ⟨htime, hcost⟩ := ok_linkValues search id near.time _ hvalues
  refine bind_eq_ok.mpr ⟨link, fetch_eq_ok.mpr hlink, ?_⟩
  refine bind_eq_ok.mpr ⟨travelTime, htime, ?_⟩
  exact bind_eq_ok.mpr ⟨linkCost, hcost, rfl⟩

theorem replay_concat {ids : List LinkId} {near label : Label α} {id : LinkId} {link : Link α}
    (hnear : search.replay direction rootTime ids = .ok near.progress)
    (hoffer : search.Offers direction near id link label) :
    search.replay direction rootTime (ids ++ [id]) = .ok label.progress := by
  unfold replay at *
  rw [List.foldlM_append]
  refine bind_eq_ok.mpr ⟨near.progress, hnear, ?_⟩
  rw [List.foldlM_cons]
  exact bind_eq_ok.mpr ⟨label.progress, hoffer.walk, rfl⟩

/-! ## Where labels come from -/

/-- A label is the root's, or was offered over its link by one of the nodes `origins`. Whether it
is settled does not matter. -/
inductive Explained (search : RoadSearch α) (direction : Direction) (root : NodeId) (rootTime : α)
    (state : SearchState α) (origins : List NodeId) (node : NodeId) (label : Label α) : Prop
  | root : node = root → { label with settled := false } = rootLabel rootTime →
    Explained search direction root rootTime state origins node label
  | offer {near : Label α} {id : LinkId} {link : Link α} :
    search.Offers direction near id link { label with settled := false } →
    direction.farEnd link = node → direction.nearEnd link ∈ origins →
    state.labelAt (direction.nearEnd link) = some near →
    Explained search direction root rootTime state origins node label

/-- An explanation holds on as long as the labels of the nodes that offered stay. -/
theorem Explained.mono {state' : SearchState α} {origins origins' : List NodeId} {node : NodeId}
    {label : Label α} (h : Explained search direction root rootTime state origins node label)
    (horigins : ∀ n ∈ origins, n ∈ origins' ∧ state'.labelAt n = state.labelAt n) :
    Explained search direction root rootTime state' origins' node label := by
  cases h with
  | root hnode hlabel => exact .root hnode hlabel
  | offer hoffer hfar hnear hlabel =>
    obtain ⟨hmem, hsame⟩ := horigins _ hnear
    exact .offer hoffer hfar hmem (hsame.trans hlabel)

/-- Every label is explained: one that is not settled by the settled nodes, and a settled one by
those that were settled before. -/
structure Traced (search : RoadSearch α) (direction : Direction) (root : NodeId) (rootTime : α)
    (state : SearchState α) : Prop extends state.Consistent search.network where
  unsettled : ∀ node label, state.labelAt node = some label → label.settled = false →
    Explained search direction root rootTime state state.settled node label
  settled : ∀ newer node older label, state.settled = newer ++ node :: older →
    state.labelAt node = some label →
    Explained search direction root rootTime state older node label

namespace Traced

theorem withFrontier (h : Traced search direction root rootTime state) (frontier : Frontier α) :
    Traced search direction root rootTime { state with frontier } := by
  refine ⟨h.toConsistent.withFrontier frontier, fun node label hlabel hopen => ?_,
    fun newer node older label hsettled hlabel => ?_⟩
  · exact (h.unsettled node label hlabel hopen).mono fun n hn => ⟨hn, rfl⟩
  · exact (h.settled newer node older label hsettled hlabel).mono fun n hn => ⟨hn, rfl⟩

theorem lower {near label : Label α} {id : LinkId} {link : Link α}
    (h : Traced search direction root rootTime state)
    (hnear : state.labelAt (direction.nearEnd link) = some near)
    (hmem : direction.nearEnd link ∈ state.settled)
    (hoffer : search.Offers direction near id link label) (hlabel : label.settled = false)
    (hfar : (direction.farEnd link).index < state.labels.size)
    (hopen : state.Open (direction.farEnd link)) :
    Traced search direction root rootTime (state.lower (direction.farEnd link) label) := by
  have hsame : ∀ n ∈ state.settled,
      (state.lower (direction.farEnd link) label).labelAt n = state.labelAt n := by
    intro n hn
    refine SearchState.labelAt_lower_of_ne ?_
    rintro rfl
    exact h.not_mem_settled hopen hn
  refine ⟨h.toConsistent.lower hfar hopen hlabel, fun node known hknown hunsettled => ?_,
    fun newer node older known hsettled hknown => ?_⟩
  · by_cases hnode : node = direction.farEnd link
    · subst hnode
      rw [SearchState.labelAt_lower_self hfar] at hknown
      cases hknown
      have hflag : { label with settled := false } = label := by rw [← hlabel]
      exact .offer (hflag ▸ hoffer) rfl hmem ((hsame _ hmem).trans hnear)
    · rw [SearchState.labelAt_lower_of_ne hnode] at hknown
      exact (h.unsettled node known hknown hunsettled).mono fun n hn => ⟨hn, hsame n hn⟩
  · have hin : ∀ n ∈ node :: older, n ∈ state.settled := by
      intro n hn
      rw [show state.settled = newer ++ node :: older from hsettled]
      exact List.mem_append_right newer hn
    rw [hsame node (hin node List.mem_cons_self)] at hknown
    exact (h.settled newer node older known hsettled hknown).mono fun n hn =>
      ⟨hn, hsame n (hin n (List.mem_cons_of_mem node hn))⟩

theorem close {node : NodeId} {label : Label α}
    (h : Traced search direction root rootTime state) (hlabel : state.labelAt node = some label)
    (hopen : state.Open node) :
    Traced search direction root rootTime (state.close node label) := by
  have hsame : ∀ n ∈ state.settled, (state.close node label).labelAt n = state.labelAt n := by
    intro n hn
    refine SearchState.labelAt_close_of_ne ?_
    rintro rfl
    exact h.not_mem_settled hopen hn
  refine ⟨h.toConsistent.close hlabel hopen, fun other known hknown hunsettled => ?_,
    fun newer other older known hsettled hknown => ?_⟩
  · have hother : other ≠ node := by
      rintro rfl
      rw [SearchState.labelAt_close_self (SearchState.lt_of_labelAt hlabel)] at hknown
      cases hknown
      cases hunsettled
    rw [SearchState.labelAt_close_of_ne hother] at hknown
    exact (h.unsettled other known hknown hunsettled).mono fun n hn =>
      ⟨List.mem_cons_of_mem node hn, hsame n hn⟩
  · cases newer with
    | nil =>
      obtain ⟨rfl, rfl⟩ : node = other ∧ state.settled = older := List.cons.inj hsettled
      rw [SearchState.labelAt_close_self (SearchState.lt_of_labelAt hlabel)] at hknown
      cases hknown
      have hwas := (h.unsettled node label hlabel (hopen label hlabel)).mono fun n hn =>
        ⟨hn, hsame n hn⟩
      cases hwas with
      | root hnode hroot => exact .root hnode hroot
      | offer hoffer hfar hnear hnearLabel => exact .offer hoffer hfar hnear hnearLabel
    | cons first newer =>
      obtain ⟨-, hsettled⟩ : node = first ∧ state.settled = newer ++ other :: older :=
        List.cons.inj hsettled
      have hin : ∀ n ∈ other :: older, n ∈ state.settled := by
        intro n hn
        rw [hsettled]
        exact List.mem_append_right newer hn
      rw [hsame other (hin other List.mem_cons_self)] at hknown
      exact (h.settled newer other older known hsettled hknown).mono fun n hn =>
        ⟨hn, hsame n (hin n (List.mem_cons_of_mem other hn))⟩

theorem settle (h : Traced search direction root rootTime state)
    (hsound : search.network.Sound) (hlinks : search.network.linkCount < 2 ^ 32) {node : NodeId}
    {label : Label α} (hlabel : state.labelAt node = some label) (hopen : state.Open node) :
    Ok (search.settle direction target state node label)
      (Traced search direction root rootTime) := by
  have hlt := SearchState.lt_of_labelAt hlabel
  rw [settle_eq hsound (decide_eq_true (h.size ▸ hlt))]
  split
  · exact Ok.pure (h.close hlabel hopen)
  · -- The label of the node stays what it is while the links are followed.
    refine Ok.mono (Ok.foldlM_keeps (P := fun state' =>
      Traced search direction root rootTime state' ∧
        state'.labelAt node = some { label with settled := true })
      ⟨h.close hlabel hopen, SearchState.labelAt_close_self hlt⟩ ?_) fun _ h => h.1
    intro id hid before ⟨hbefore, hnode⟩ after hafter
    have hmem : node ∈ before.settled := (hbefore.mem_settled node).mpr ⟨_, hnode, rfl⟩
    cases ok_relax search direction label before id after hafter with
    | refused => exact ⟨hbefore, hnode⟩
    | @taken link offered hoffer hfar hopenFar _ =>
      obtain ⟨link', hfound, hnear⟩ := (Network.mem_leaving hlinks).mp hid
      obtain rfl : link = link' := Option.some.inj (hoffer.found.symm.trans hfound)
      have hne : node ≠ direction.farEnd link := by
        rintro rfl
        exact absurd (hopenFar _ hnode) nofun
      have hlabel : offered.settled = false := by
        obtain ⟨-, travelTime, linkCost, -, rfl⟩ := hoffer
        rfl
      refine ⟨hbefore.lower (hnear ▸ hnode) (hnear ▸ hmem) hoffer.settled hlabel hfar hopenFar, ?_⟩
      rw [SearchState.labelAt_lower_of_ne hne]
      exact hnode

theorem explore (hsound : search.network.Sound) (hlinks : search.network.linkCount < 2 ^ 32)
    (entries : Nat) : ∀ state, Traced search direction root rootTime state →
      Ok (search.explore direction maxCost target entries state)
        (Traced search direction root rootTime) := by
  induction entries with
  | zero => exact fun state h => Ok.pure h
  | succ entries ih =>
    intro state h
    cases hpop : state.frontier.pop? with
    | none =>
      rw [explore_done hpop]
      exact Ok.pure h
    | some popped =>
      obtain ⟨entry, frontier⟩ := popped
      obtain hstale | ⟨label, hlive⟩ := stale_or_live state entry
      · rw [explore_skip hpop hstale]
        exact ih _ (h.withFrontier frontier)
      · by_cases hbound : maxCost < entry.cost
        · rw [explore_stop hpop hlive hbound]
          exact Ok.pure (h.withFrontier frontier)
        · rw [explore_settle hpop hlive hbound]
          refine Ok.bind ((h.withFrontier frontier).settle hsound hlinks hlive.known hlive.isOpen)
            fun state' h' => ?_
          split
          · exact Ok.pure h'
          · exact ih _ h'

end Traced

theorem traced_start (hroot : search.network.contains root = true) :
    Traced search direction root rootTime (search.start root rootTime) := by
  refine ⟨consistent_start hroot, fun node label hlabel _ => ?_,
    fun newer node older label hsettled => ?_⟩
  · obtain ⟨hnode, rfl⟩ := (labelAt_start hroot).mp hlabel
    exact .root hnode rfl
  · exact absurd hsettled (by simp [start])

theorem traced_of_run (hsound : search.network.Sound) (hlinks : search.network.linkCount < 2 ^ 32)
    {tree : PathTree α} (h : search.run root rootTime direction maxCost target = .ok tree) :
    ∃ state, Traced search direction root rootTime state ∧
      tree = state.tree root direction rootTime := by
  obtain ⟨hroot, state, hstate, rfl⟩ := run_eq_ok.mp h
  exact ⟨state, (traced_start hroot).explore hsound hlinks _ _ _ hstate, rfl⟩

/-! ## Paths -/

/-- A way on which a search came to a node: it goes through the nodes `through` only, never twice
through the same, comes to what the label says, and is what following the labels back finds. -/
structure Way (search : RoadSearch α) (tree : PathTree α) (through : List NodeId) (node : NodeId)
    (label : Label α) (ids : List LinkId) (nodes : List NodeId) : Prop where
  leads : search.network.Leads tree.direction tree.root ids nodes node
  nodup : nodes.Nodup
  through : ∀ n ∈ nodes, n ∈ through
  replay : search.replay tree.direction tree.rootTime ids = .ok label.progress
  trace : ∀ steps, ids.length < steps →
    tree.trace? search.network steps node = some ids.reverse

theorem Way.mono {tree : PathTree α} {through through' : List NodeId} {node : NodeId}
    {label : Label α} {ids : List LinkId} {nodes : List NodeId}
    (h : Way search tree through node label ids nodes) (hmem : ∀ n ∈ through, n ∈ through') :
    Way search tree through' node label ids nodes :=
  { h with through := fun n hn => hmem n (h.through n hn) }

theorem Way.start {label : Label α} (hlabel : state.labelAt root = some label)
    (hstart : { label with settled := false } = rootLabel rootTime) :
    Way search (state.tree root direction rootTime) [root] root label [] [root] where
  leads := .root
  nodup := List.nodup_singleton root
  through := fun _ hn => hn
  replay := by
    have hprogress := congrArg Label.progress hstart
    exact congrArg Except.ok hprogress.symm
  trace := by
    intro steps hsteps
    obtain ⟨steps, rfl⟩ := Nat.exists_eq_succ_of_ne_zero (Nat.ne_of_gt hsteps)
    have hpred : label.pred = none := congrArg Label.pred hstart
    exact PathTree.trace?_start hlabel hpred

/-- The way goes on over the link that offered the label of the next node. -/
theorem Way.follow {older : List NodeId} {near label : Label α} {id : LinkId} {link : Link α}
    {ids : List LinkId} {nodes : List NodeId}
    (h : Way search (state.tree root direction rootTime) older (direction.nearEnd link) near ids
      nodes)
    (hoffer : search.Offers direction near id link { label with settled := false })
    (hlabel : state.labelAt (direction.farEnd link) = some label)
    (hnew : direction.farEnd link ∉ older) :
    Way search (state.tree root direction rootTime) (direction.farEnd link :: older)
      (direction.farEnd link) label (ids ++ [id]) (nodes ++ [direction.farEnd link]) where
  leads := h.leads.follow hoffer.found
  nodup := by
    refine List.nodup_append.mpr ⟨h.nodup, List.nodup_singleton _, ?_⟩
    rintro n hn _ hfar rfl
    rw [List.mem_singleton.mp hfar] at hn
    exact hnew (h.through _ hn)
  through := by
    intro n hn
    rcases List.mem_append.mp hn with hn | hn
    · exact List.mem_cons_of_mem _ (h.through n hn)
    · exact List.mem_singleton.mp hn ▸ List.mem_cons_self
  replay := by
    have hreplay := replay_concat h.replay hoffer
    exact hreplay
  trace := by
    intro steps hsteps
    rw [List.length_append] at hsteps
    obtain ⟨steps, rfl⟩ := Nat.exists_eq_succ_of_ne_zero (show steps ≠ 0 by omega)
    have hpred : label.pred = some id := by
      obtain ⟨-, travelTime, linkCost, -, heq⟩ := hoffer
      exact congrArg Label.pred heq
    rw [List.reverse_concat]
    exact PathTree.trace?_follow hlabel hpred hoffer.found (h.trace steps (by simpa using hsteps))

/-- Every settled node has a way through nodes that were settled before. -/
theorem Traced.exists_way (h : Traced search direction root rootTime state) (older : List NodeId) :
    ∀ newer, state.settled = newer ++ older → ∀ node ∈ older, ∀ label,
      state.labelAt node = some label → ∃ ids nodes,
        Way search (state.tree root direction rootTime) older node label ids nodes := by
  induction older with
  | nil => exact fun _ _ node hnode => absurd hnode List.not_mem_nil
  | cons last older ih =>
    intro newer hsettled node hnode label hlabel
    have ih := ih (newer ++ [last]) (by rw [hsettled, List.append_assoc]; rfl)
    rcases List.mem_cons.mp hnode with rfl | hnode
    · have hnew : node ∉ older := by
        have hnodup := h.nodup
        rw [hsettled] at hnodup
        exact (List.nodup_cons.mp (List.nodup_append.mp hnodup).2.1).1
      cases h.settled newer node older label hsettled hlabel with
      | root hroot hstart =>
        subst hroot
        exact ⟨[], [node], (Way.start hlabel hstart).mono (by simp)⟩
      | offer hoffer hfar hnear hnearLabel =>
        subst hfar
        obtain ⟨ids, nodes, hway⟩ := ih _ hnear _ hnearLabel
        exact ⟨_, _, hway.follow hoffer hlabel hnew⟩
    · obtain ⟨ids, nodes, hway⟩ := ih node hnode label hlabel
      exact ⟨ids, nodes, hway.mono fun n hn => List.mem_cons_of_mem last hn⟩

/-- A way has fewer links than the network has nodes. -/
theorem Way.length_lt {tree : PathTree α} {through : List NodeId} {node : NodeId} {label : Label α}
    {ids : List LinkId} {nodes : List NodeId} (h : Way search tree through node label ids nodes)
    (hsound : search.network.Sound) (hroot : search.network.contains tree.root = true) :
    ids.length < search.network.nodeCount := by
  have hnodup : (nodes.map Id.index).Nodup := h.nodup.map fun _ _ => Id.index_injective
  have hsubset : nodes.map Id.index ⊆ List.range search.network.nodeCount := by
    intro i hi
    obtain ⟨n, hn, rfl⟩ := List.mem_map.mp hi
    exact List.mem_range.mpr (of_decide_eq_true (h.leads.contains hsound hroot n hn))
  have hlength := hnodup.length_le_of_subset hsubset
  rw [List.length_map, List.length_range, h.leads.length] at hlength
  omega

/-- The links that a tree gives for a node are a path between the root and the node, over settled
nodes and never twice over the same, and walking along it from the root comes to what the label of
the node says. A node without a label has no path. -/
theorem tree_path_replays {draft : NetworkDraft α} (search : RoadSearch α)
    (hbuild : draft.build = .ok search.network) (hlinks : draft.links.size < 2 ^ 32 - 1)
    {root : NodeId} {rootTime : α} {direction : Direction} {maxCost : α} {target : Option NodeId}
    {tree : PathTree α} (hrun : search.run root rootTime direction maxCost target = .ok tree)
    (node : NodeId) :
    (search.network.contains node = false → tree.label? node = none) ∧
    (tree.label? node = none → tree.pathTo? search.network node = none) ∧
    ∀ label, tree.label? node = some label → ∃ links nodes,
      tree.pathTo? search.network node = some links ∧
      (∀ steps, search.network.nodeCount ≤ steps →
        tree.trace? search.network steps node = some (direction.turn links).reverse) ∧
      direction.Joins search.network root node links nodes ∧
      nodes.Nodup ∧ (∀ n ∈ nodes, (tree.label? n).isSome = true) ∧
      search.replay direction rootTime (direction.turn links) = .ok label.progress := by
  obtain ⟨-, hsound⟩ := NetworkDraft.sound_build hbuild
  have hcount : search.network.linkCount < 2 ^ 32 :=
    NetworkDraft.linkCount_lt_of_build hbuild hlinks
  have hroot := contains_of_run hrun
  obtain ⟨state, htraced, rfl⟩ := traced_of_run hsound hcount hrun
  refine ⟨fun hout => ?_, fun hnone => ?_, fun label hlabel => ?_⟩
  · cases hlabel : (state.tree root direction rootTime).label? node with
    | none => rfl
    | some label =>
      have hlt := SearchState.lt_of_labelAt (SearchState.label?_tree.mp hlabel).1
      rw [htraced.size] at hlt
      exact absurd hlt (of_decide_eq_false hout)
  · rw [PathTree.pathTo?, hnone]
    rfl
  · obtain ⟨hknown, hsettled⟩ := SearchState.label?_tree.mp hlabel
    obtain ⟨ids, nodes, hway⟩ := htraced.exists_way state.settled [] rfl node
      ((htraced.mem_settled node).mpr ⟨label, hknown, hsettled⟩) label hknown
    have hlength := hway.length_lt hsound hroot
    refine ⟨direction.turn ids, direction.turn nodes, ?_, fun steps hsteps => ?_,
      hway.leads.joins, Direction.nodup_turn hway.nodup, fun n hn => ?_, ?_⟩
    · rw [PathTree.pathTo?, hlabel]
      show (do let links ← PathTree.trace? _ _ state.labels.size node; _) = _
      rw [hway.trace _ (htraced.size ▸ hlength)]
      cases direction with
      | forward => exact congrArg some (List.reverse_reverse ids)
      | backward => rfl
    · rw [Direction.turn_turn]
      exact hway.trace steps (Nat.lt_of_lt_of_le hlength hsteps)
    · obtain ⟨known, hmem⟩ := (htraced.mem_settled n).mp (hway.through n (Direction.mem_turn.mp hn))
      exact Option.isSome_iff_exists.mpr ⟨known, SearchState.label?_tree.mpr hmem⟩
    · rw [Direction.turn_turn]
      exact hway.replay

end RoadSearch

/-! ## An example -/

/-- The way around is slower from the first hour on, the long street never is. -/
def rushHour : LinkFunction Float where
  value id time := .ok (if id = ⟨2⟩ then 180 else if time < 3600 then 60 else 100)
  timeInvariant := false

/-- Who has to be at the last crossing at the first hour takes the way around. -/
theorem tree_path_crossings : ∃ tree label links nodes,
    crossings.build = .ok crossings.layOut ∧ crossings.links.size < 2 ^ 32 - 1 ∧
      RoadSearch.run ⟨crossings.layOut, rushHour, rushHour⟩ ⟨2⟩ 3600 .backward 1000 none =
        .ok tree ∧
      tree.label? ⟨0⟩ = some label ∧ tree.pathTo? crossings.layOut ⟨0⟩ = some links ∧
      links = [⟨0⟩, ⟨1⟩] ∧ Direction.backward.Joins crossings.layOut ⟨2⟩ ⟨0⟩ links nodes ∧
      nodes.Nodup ∧ (∀ n ∈ nodes, (tree.label? n).isSome = true) ∧
      RoadSearch.replay ⟨crossings.layOut, rushHour, rushHour⟩ .backward 3600 links.reverse =
        .ok label.progress := by
  have hfound : (match RoadSearch.run ⟨crossings.layOut, rushHour, rushHour⟩ ⟨2⟩ 3600 .backward
      1000 none with
    | .ok tree => (tree.label? ⟨0⟩).isSome &&
      decide (tree.pathTo? crossings.layOut ⟨0⟩ = some [⟨0⟩, ⟨1⟩])
    | .error _ => false) = true := by decide +kernel
  split at hfound
  case h_1 tree hrun =>
    rw [Bool.and_eq_true, decide_eq_true_eq] at hfound
    obtain ⟨label, hlabel⟩ := Option.isSome_iff_exists.mp hfound.1
    obtain ⟨-, -, hpath⟩ := RoadSearch.tree_path_replays ⟨crossings.layOut, rushHour, rushHour⟩
      build_crossings (by decide) hrun ⟨0⟩
    obtain ⟨links, nodes, hlinks, -, hway⟩ := hpath label hlabel
    have hlinks' : links = [⟨0⟩, ⟨1⟩] := Option.some.inj (hlinks.symm.trans hfound.2)
    exact ⟨tree, label, links, nodes, build_crossings, by decide, hrun, hlabel, hlinks, hlinks',
      hway⟩
  case h_2 => cases hfound

end ZoneSkims
