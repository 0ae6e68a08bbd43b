import ZoneSkims.Proofs.Road.EarlyStop
import ZoneSkims.Proofs.Road.TreePath
import ZoneSkims.Proofs.Scalar.Double

/-!
# Bounds on cost

A search with a bound is the beginning of the whole search: the whole search comes to the place
where the other one stops, and goes on from there. So the bound leaves nodes out and changes nothing
about the others. Link functions may depend on the time in any way.

* `RoadSearch.explore_resumes`: the whole search goes on where the bound has stopped the other one.
* `RoadSearch.tree_settled`: the list of settled nodes and the labels of a tree agree.
* `RoadSearch.run_bounded`: the main result.
-/

namespace ZoneSkims

variable {α : Type} [Scalar α]

namespace RoadSearch

variable {search : RoadSearch α} {direction : Direction} {maxCost rootTime : α} {root : NodeId}
  {target : Option NodeId} {state stopped : SearchState α} {node : NodeId}

/-! ## Settled nodes -/

/-- Nodes that were settled stay in the list, and others come before them. -/
theorem suffix_explore (entries : Nat) (state : SearchState α) :
    Ok (search.explore direction maxCost target entries state) fun final =>
      state.settled <:+ final.settled := by
  refine explore_keeps (Q := fun _ => True) (P := fun later => state.settled <:+ later.settled)
    (fun _ _ _ h _ => h) (fun _ _ _ _ h _ _ _ => ⟨trivial, h.trans (List.suffix_cons _ _)⟩)
    (fun _ _ _ _ _ h hrelaxed => ?_) entries state (List.suffix_refl _)
  cases hrelaxed with
  | refused => exact h
  | taken => exact h

theorem consistent_explore (entries : Nat) (h : state.Consistent search.network) :
    Ok (search.explore direction maxCost target entries state) fun final =>
      final.Consistent search.network := by
  refine explore_keeps (Q := fun _ => True)
    (P := fun state : SearchState α => state.Consistent search.network)
    (fun _ _ rest h _ => h.withFrontier rest)
    (fun _ _ rest _ h _ hlive _ => ⟨trivial, (h.withFrontier rest).close hlive.known hlive.isOpen⟩)
    (fun _ _ _ _ _ h hrelaxed => ?_) entries state h
  cases hrelaxed with
  | refused => exact h
  | taken hoffer hfar hopen _ => exact h.lower hfar hopen hoffer.unsettled

/-- The settled nodes are those with a label, each of them once. -/
theorem tree_settled {tree : PathTree α}
    (h : search.run root rootTime direction maxCost target = .ok tree) :
    tree.settled.Nodup ∧ ∀ node, node ∈ tree.settled ↔ ∃ label, tree.label? node = some label := by
  obtain ⟨hroot, final, hfinal, rfl⟩ := run_eq_ok.mp h
  have hconsistent := consistent_explore _ (consistent_start hroot) final hfinal
  refine ⟨hconsistent.nodup, fun node => (hconsistent.mem_settled node).trans ?_⟩
  exact exists_congr fun label => SearchState.label?_tree.symm

/-! ## Where a bound stops a search -/

variable [LawfulScalar α]

/-- The whole search comes to the nodes and the labels with which the bounded one stops, and goes on
from there. -/
theorem explore_resumes (entries : Nat) : ∀ state : SearchState α,
    search.explore direction maxCost none entries state = .ok stopped →
      ∃ left reached, reached.labels = stopped.labels ∧ reached.settled = stopped.settled ∧
        search.explore direction Scalar.infinity none entries state =
          search.explore direction Scalar.infinity none left reached := by
  induction entries with
  | zero =>
    intro state h
    cases h
    exact ⟨0, _, rfl, rfl, rfl⟩
  | succ entries ih =>
    intro state h
    cases hpop : state.frontier.pop? with
    | none =>
      rw [explore_done hpop] at h
      cases h
      exact ⟨entries + 1, _, rfl, rfl, rfl⟩
    | some popped =>
      obtain ⟨entry, rest⟩ := popped
      obtain hstale | ⟨label, hlive⟩ := stale_or_live state entry
      · rw [explore_skip hpop hstale] at h ⊢
        exact ih _ h
      · by_cases hbound : maxCost < entry.cost
        · rw [explore_stop hpop hlive hbound] at h
          cases h
          exact ⟨entries + 1, state, rfl, rfl, rfl⟩
        · rw [explore_settle hpop hlive hbound] at h
          obtain ⟨after, hafter, h⟩ := bind_eq_ok.mp h
          rw [explore_whole hpop hlive, hafter]
          exact ih after (by rwa [if_neg nofun] at h)

/-- The whole search settles the nodes of the bounded one first. -/
theorem suffix_of_run {tree full : PathTree α}
    (htree : search.run root rootTime direction maxCost none = .ok tree)
    (hfull : search.run root rootTime direction Scalar.infinity none = .ok full) :
    tree.settled <:+ full.settled := by
  obtain ⟨-, stopped, hstopped, rfl⟩ := run_eq_ok.mp htree
  obtain ⟨-, final, hfinal, rfl⟩ := run_eq_ok.mp hfull
  obtain ⟨left, reached, -, hsettled, hresumes⟩ := explore_resumes _ _ hstopped
  have hsuffix := suffix_explore left reached final (hresumes.symm.trans hfinal)
  rwa [hsettled] at hsuffix

/-- The costs of a tree are numbers. -/
theorem isNumber_of_label? {tree : PathTree α} {label : Label α}
    (h : search.run root rootTime direction maxCost target = .ok tree)
    (hlabel : tree.label? node = some label) : Scalar.IsNumber label.cost := by
  refine run_labels (Q := fun label => Scalar.IsNumber label.cost)
    (Scalar.isNumber_of_isFinite LawfulScalar.isFinite_zero) (fun _ h => h)
    (fun near id link label hnear hoffer => ?_) h hlabel
  obtain ⟨linkCost, hfinite, -, hcost⟩ := hoffer.exists_cost
  exact hcost ▸ Scalar.isNumber_add hnear hfinite

/-- A list without repetitions is cut down to an end of it by what holds of exactly that end. -/
theorem eq_filter_of_suffix {β : Type} {xs ys : List β} {p : β → Bool} (h : ys <:+ xs)
    (hnodup : xs.Nodup) (hmem : ∀ x ∈ xs, x ∈ ys ↔ p x = true) : ys = xs.filter p := by
  obtain ⟨first, rfl⟩ := h
  have hapart := List.disjoint_of_nodup_append hnodup
  have hfirst : first.filter p = [] := List.filter_eq_nil_iff.mpr fun x hx hp =>
    hapart hx ((hmem x (List.mem_append_left _ hx)).mpr hp)
  have hrest : ys.filter p = ys := List.filter_eq_self.mpr fun x hx =>
    (hmem x (List.mem_append_right _ hx)).mp hx
  rw [List.filter_append, hfirst, hrest, List.nil_append]

/-- Where the whole search succeeds, so does the one with a bound. It settles the nodes whose cost
is within the bound, in the same order, and gives them the same labels. Where it fails, the whole
search fails in the same way. -/
theorem run_bounded (search : RoadSearch α) (root : NodeId) (rootTime : α) (direction : Direction)
    {maxCost : α} (hbound : Scalar.IsNumber maxCost) :
    (∀ full, search.run root rootTime direction Scalar.infinity none = .ok full →
      ∃ tree, search.run root rootTime direction maxCost none = .ok tree ∧
        (∀ node, tree.label? node = (full.label? node).filter fun label => label.cost ≤ maxCost) ∧
        tree.settled = full.settled.filter fun node =>
          (full.cost? node).any fun cost => cost ≤ maxCost) ∧
    ∀ failure, search.run root rootTime direction maxCost none = .error failure →
      search.run root rootTime direction Scalar.infinity none = .error failure := by
  refine ⟨fun full hfull => ?_, fun failure hfailure => run_fails hfailure⟩
  obtain ⟨tree, htree, -, hlabels⟩ := exists_bounded_tree hfull maxCost
  have hwithin : ∀ node label, full.label? node = some label →
      (¬ maxCost < label.cost ↔ label.cost ≤ maxCost) := fun node label hlabel =>
    ⟨Scalar.le_of_not_lt hbound (isNumber_of_label? hfull hlabel), Scalar.not_lt_of_le⟩
  have hlabel : ∀ node, tree.label? node =
      (full.label? node).filter fun label => label.cost ≤ maxCost := by
    intro node
    rw [hlabels node]
    cases hlabel : full.label? node with
    | none => rfl
    | some label => simp only [Option.filter_some, hwithin node label hlabel]
  obtain ⟨hnodup, hsettled⟩ := tree_settled hfull
  refine ⟨tree, htree, hlabel, eq_filter_of_suffix (suffix_of_run htree hfull) hnodup
    fun node hnode => ?_⟩
  obtain ⟨label, hknown⟩ := (hsettled node).mp hnode
  rw [(tree_settled htree).2 node, hlabel node, PathTree.cost?, hknown]
  simp

end RoadSearch

/-! ## An example -/

/-- In the rush hour the way around takes longer than the long street, and so the last crossing is
beyond a bound of 150. -/
theorem run_bounded_crossings : ∃ full tree,
    Scalar.IsNumber (150 : Float) ∧
      RoadSearch.run ⟨crossings.layOut, rushHour, rushHour⟩ ⟨0⟩ 3600 .forward Scalar.infinity none =
        .ok full ∧
      RoadSearch.run ⟨crossings.layOut, rushHour, rushHour⟩ ⟨0⟩ 3600 .forward 150 none =
        .ok tree ∧
      (∀ node, tree.label? node = (full.label? node).filter fun label => label.cost ≤ 150) ∧
      full.settled = [⟨2⟩, ⟨1⟩, ⟨0⟩] ∧ tree.settled = [⟨1⟩, ⟨0⟩] := by
  have hfound : ((RoadSearch.run ⟨crossings.layOut, rushHour, rushHour⟩ ⟨0⟩ 3600 .forward
      Scalar.infinity none).toOption.any fun full =>
        decide (full.settled = [⟨2⟩, ⟨1⟩, ⟨0⟩] ∧ (full.settled.filter fun node =>
          (full.cost? node).any fun cost => cost ≤ 150) = [⟨1⟩, ⟨0⟩])) = true := by
    decide +kernel
  obtain ⟨full, hfull, hall, hnear⟩ := exists_of_any hfound
  have hbound : Scalar.IsNumber (150 : Float) := rfl
  obtain ⟨hsucceeds, -⟩ := RoadSearch.run_bounded ⟨crossings.layOut, rushHour, rushHour⟩ ⟨0⟩ 3600
    .forward hbound
  obtain ⟨tree, htree, hlabels, hsettled⟩ := hsucceeds full hfull
  exact ⟨full, tree, hbound, hfull, htree, hlabels, hall, hsettled.trans hnear⟩

end ZoneSkims
