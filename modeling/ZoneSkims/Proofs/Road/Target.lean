import ZoneSkims.Proofs.Road.Pairwise
import ZoneSkims.Proofs.Road.TreePath

/-!
# Searches for one target

A search for a target stops as soon as the target is settled. By then all nodes on the way to it are
settled, too, and so following the links back finds the same way as in the tree of the whole search.
Link functions may depend on the time.

* `RoadSearch.Traced.trace?_eq`: a tree that has kept the labels of another one has the same ways to
  the settled nodes of that.
* `RoadSearch.cheapestPath_agrees`: the search for a target finds what the whole search finds, and
  fails only as that fails.
-/

namespace ZoneSkims

variable {α : Type} [Scalar α]

namespace RoadSearch

variable {search : RoadSearch α} {direction : Direction} {root source node : NodeId}
  {rootTime departure : α} {state : SearchState α} {label : Label α} {full : PathTree α}

/-! ## Ways to settled nodes -/

/-- A settled node has no link to follow back, or one that leads to a settled node. -/
theorem Traced.pred_cases (h : Traced search direction root rootTime state)
    (hnode : node ∈ state.settled) (hlabel : state.labelAt node = some label) :
    label.pred = none ∨ ∃ id link, label.pred = some id ∧
      search.network.links[id.index]? = some link ∧ direction.nearEnd link ∈ state.settled := by
  obtain ⟨newer, older, hsettled⟩ := List.append_of_mem hnode
  cases h.settled newer node older label hsettled hlabel with
  | root _ hstart => exact .inl (congrArg Label.pred hstart)
  | @offer near id link hoffer _ hnear _ =>
    obtain ⟨hfound, travelTime, linkCost, -, heq⟩ := hoffer
    have hmem : direction.nearEnd link ∈ state.settled := by
      rw [hsettled]
      exact List.mem_append_right newer (List.mem_cons_of_mem node hnear)
    exact .inr ⟨id, link, congrArg Label.pred heq, hfound, hmem⟩

/-- Where the labels of a search were kept, following them back finds the same way. -/
theorem Traced.trace?_eq (h : Traced search direction root rootTime state)
    (hdirection : full.direction = direction)
    (hkept : ∀ node label, (state.tree root direction rootTime).label? node = some label →
      full.label? node = some label) (steps : Nat) :
    ∀ node ∈ state.settled, full.trace? search.network steps node =
      (state.tree root direction rootTime).trace? search.network steps node := by
  induction steps with
  | zero => exact fun _ _ => rfl
  | succ steps ih =>
    intro node hnode
    obtain ⟨label, hlabel, hsettled⟩ := (h.mem_settled node).mp hnode
    have hfull : full.labels[node.index]?.join = some label :=
      (Option.filter_eq_some_iff.mp
        (hkept node label (SearchState.label?_tree.mpr ⟨hlabel, hsettled⟩))).1
    have hstate : (state.tree root direction rootTime).labels[node.index]?.join = some label :=
      hlabel
    obtain hpred | ⟨id, link, hpred, hlink, hnear⟩ := h.pred_cases hnode hlabel
    · rw [PathTree.trace?_start hfull hpred, PathTree.trace?_start hstate hpred]
    · have hrest := ih _ hnear
      simp only [PathTree.trace?, hfull, hstate, hpred, hlink, hdirection, Option.bind_eq_bind,
        Option.bind_some]
      exact congrArg (Option.bind · _) hrest

/-- A settled node has a way. -/
theorem exists_pathTo? {tree : PathTree α} {maxCost : α} {target : Option NodeId}
    (hsound : search.network.Sound) (hlinks : search.network.linkCount < 2 ^ 32)
    (hrun : search.run root rootTime direction maxCost target = .ok tree)
    (hlabel : tree.label? node = some label) :
    ∃ links, tree.pathTo? search.network node = some links := by
  obtain ⟨state, htraced, rfl⟩ := traced_of_run hsound hlinks hrun
  obtain ⟨hknown, hsettled⟩ := SearchState.label?_tree.mp hlabel
  obtain ⟨ids, nodes, hway⟩ := htraced.exists_way state.settled [] rfl node
    ((htraced.mem_settled node).mpr ⟨label, hknown, hsettled⟩) label hknown
  have hlength := hway.length_lt hsound (contains_of_run hrun)
  have htrace := hway.trace _ (htraced.size ▸ hlength)
  exact ⟨_, Option.bind_eq_some_iff.mpr
    ⟨label, hlabel, Option.bind_eq_some_iff.mpr ⟨_, htrace, rfl⟩⟩⟩

variable [LawfulScalar α]

/-- The tree of a search for a target has the label of the target and the way to it from the tree of
the whole search. -/
theorem exists_target_path (hsound : search.network.Sound)
    (hlinks : search.network.linkCount < 2 ^ 32)
    (hfull : search.run root rootTime direction Scalar.infinity none = .ok full)
    (target : NodeId) :
    ∃ tree, search.run root rootTime direction Scalar.infinity (some target) = .ok tree ∧
      tree.label? target = full.label? target ∧
      tree.pathTo? search.network target = full.pathTo? search.network target := by
  obtain ⟨tree, hrun, hlabel, hkept⟩ := exists_target_tree hfull target
  obtain ⟨state, htraced, rfl⟩ := traced_of_run hsound hlinks hrun
  obtain ⟨final, hfinal, rfl⟩ := traced_of_run hsound hlinks hfull
  refine ⟨_, hrun, hlabel, ?_⟩
  unfold PathTree.pathTo?
  rw [← hlabel]
  cases hfound : (state.tree root direction rootTime).label? target with
  | none => rfl
  | some label =>
    obtain ⟨hknown, hsettled⟩ := SearchState.label?_tree.mp hfound
    have hsize : (final.tree root direction rootTime).labels.size =
        (state.tree root direction rootTime).labels.size := hfinal.size.trans htraced.size.symm
    rw [hsize, htraced.trace?_eq rfl hkept _ target
      ((htraced.mem_settled target).mpr ⟨label, hknown, hsettled⟩)]
    rfl

variable [LawfulClock α]

/-- A tree takes the magnitude of the time that has passed, which is the plain difference. -/
theorem travelTime?_eq (hdeparture : Scalar.isFinite departure = true)
    (hfull : search.treeFrom source departure Scalar.infinity = .ok full)
    (hlabel : full.label? node = some label) :
    full.travelTime? node = some (label.time - departure) := by
  have hroot : full.rootTime = departure := rootTime_of_run hfull
  obtain ⟨-, hafter⟩ := label_of_run hdeparture hfull hlabel
  rw [PathTree.travelTime?, hlabel, hroot]
  exact congrArg some (LawfulClock.abs_sub hafter.isNumber hdeparture hafter.orderedLe)

/-- If the whole search from a source succeeds, so does the search for a target. It finds no path
exactly when the whole search has no label of the target, and else the path, the cost, the distance
and the travel time of its tree. If the search for a target fails, the whole search fails in the
same way. -/
theorem cheapestPath_agrees {draft : NetworkDraft α} (search : RoadSearch α)
    (hbuild : draft.build = .ok search.network) (hlinks : draft.links.size < 2 ^ 32)
    (source : NodeId) {target : NodeId} (htarget : search.network.contains target = true)
    (hdeparture : Scalar.isFinite departure = true) :
    (∀ full, search.treeFrom source departure Scalar.infinity = .ok full →
      ∃ path?, search.cheapestPath source target departure = .ok path? ∧
        (path? = none ↔ full.label? target = none) ∧
        ∀ path, path? = some path →
          full.pathTo? search.network target = some path.links ∧
          full.cost? target = some path.cost ∧ full.distance? target = some path.distance ∧
          full.travelTime? target = some path.travelTime) ∧
    ∀ e, search.cheapestPath source target departure = .error e →
      search.treeFrom source departure Scalar.infinity = .error e := by
  obtain ⟨-, hsound⟩ := NetworkDraft.sound_build hbuild
  have hcount : search.network.linkCount < 2 ^ 32 :=
    NetworkDraft.linkCount_of_build hbuild ▸ hlinks
  unfold cheapestPath
  rw [if_pos htarget]
  refine ⟨fun full hfull => ?_, fun e herror => ?_⟩
  · obtain ⟨tree, hrun, hlabel, hpath⟩ := exists_target_path hsound hcount hfull target
    refine ⟨_, bind_eq_ok.mpr ⟨tree, hrun, rfl⟩, ?_, fun path hsome => ?_⟩
    · rw [Option.map_eq_none_iff, hlabel]
    · obtain ⟨label, hfound, rfl⟩ := Option.map_eq_some_iff.mp hsome
      rw [hlabel] at hfound
      obtain ⟨links, hfollowed⟩ := exists_pathTo? hsound hcount hfull hfound
      refine ⟨?_, ?_, ?_, travelTime?_eq hdeparture hfull hfound⟩
      · rw [hpath, hfollowed]
        rfl
      · rw [PathTree.cost?, hfound]
        rfl
      · rw [PathTree.distance?, hfound]
        rfl
  · cases hrun : search.run source departure .forward Scalar.infinity (some target) with
    | error e' =>
      rw [hrun] at herror
      cases herror
      exact run_fails hrun
    | ok tree =>
      rw [hrun] at herror
      cases herror

end RoadSearch

/-! ## An example -/

/-- A little before the rush hour, the way around the long street is found as by the whole
search. The second street of it is entered in the rush hour, when it takes longer. -/
theorem cheapestPath_crossings : ∃ full path,
    crossings.build = .ok crossings.layOut ∧ crossings.links.size < 2 ^ 32 ∧
      crossings.layOut.contains ⟨2⟩ = true ∧ Scalar.isFinite (3550 : Float) = true ∧
      RoadSearch.treeFrom ⟨crossings.layOut, rushHour, rushHour⟩ ⟨0⟩ 3550 Scalar.infinity =
        .ok full ∧
      RoadSearch.cheapestPath ⟨crossings.layOut, rushHour, rushHour⟩ ⟨0⟩ ⟨2⟩ 3550 =
        .ok (some path) ∧
      full.pathTo? crossings.layOut ⟨2⟩ = some path.links ∧ full.cost? ⟨2⟩ = some path.cost ∧
      full.distance? ⟨2⟩ = some path.distance ∧ full.travelTime? ⟨2⟩ = some path.travelTime := by
  have hreached : ((RoadSearch.treeFrom ⟨crossings.layOut, rushHour, rushHour⟩ ⟨0⟩ 3550
      Scalar.infinity).toOption.any fun full =>
        decide ((full.label? ⟨2⟩).isSome = true)) = true := by
    decide +kernel
  obtain ⟨full, hfull, hsome⟩ := exists_of_any hreached
  have htarget : crossings.layOut.contains ⟨2⟩ = true := by decide
  have hdeparture : Scalar.isFinite (3550 : Float) = true := rfl
  obtain ⟨hagrees, -⟩ := RoadSearch.cheapestPath_agrees ⟨crossings.layOut, rushHour, rushHour⟩
    build_crossings (by decide) ⟨0⟩ htarget hdeparture
  obtain ⟨path?, hpath, hnone, hvalues⟩ := hagrees full hfull
  cases path? with
  | none =>
    rw [hnone.mp rfl] at hsome
    cases hsome
  | some path =>
    exact ⟨full, path, build_crossings, by decide, htarget, hdeparture, hfull, hpath,
      hvalues path rfl⟩

end ZoneSkims
