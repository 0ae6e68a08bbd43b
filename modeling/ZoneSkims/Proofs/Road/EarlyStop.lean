import ZoneSkims.Proofs.Road.Frontier
import ZoneSkims.Proofs.Road.Search

/-!
# Searches that stop early

A search with a bound on cost or with a target takes the same entries as one without, and stops at
one of them. What it has settled by then is settled for good, and what it has not settled lies
beyond the bound. Link functions may depend on the time in any way.

* `RoadSearch.explore_keeps`: what every step of a search preserves holds at its end.
* `RoadSearch.run_labels`: what every offer preserves holds of all labels of a tree.
* `RoadSearch.explore_fails`: a search that stops early fails only as the whole search does.
* `RoadSearch.explore_stopped`: how the labels of the two compare.
* `RoadSearch.exists_bounded_tree`, `RoadSearch.exists_target_tree`: the trees of a search with a
  bound, and of one with a target.
-/

namespace ZoneSkims

variable {α : Type} [Scalar α]

namespace RoadSearch

variable {search : RoadSearch α} {direction : Direction} {maxCost rootTime : α} {root : NodeId}
  {target : Option NodeId} {state state' : SearchState α} {node : NodeId} {near label : Label α}
  {id : LinkId} {link : Link α} {entry : Frontier.Entry α} {rest : Frontier α}

/-! ## What every step preserves -/

theorem ok_settle {P : SearchState α → Prop} (hclose : P (state.close node label))
    (hrelax : ∀ id before after, P before → Relaxed search direction label before id after →
      P after) : Ok (search.settle direction target state node label) P := by
  unfold settle
  split
  · exact Ok.pure hclose
  · refine Ok.bind (Ok.lift (Ok.trivial _)) fun links _ => ?_
    exact Ok.foldlM_keeps hclose fun id _ before hbefore after hafter =>
      hrelax id before after hbefore (ok_relax _ _ _ _ _ after hafter)

/-- What holds of the labels of settled nodes, `Q`, and of states, `P`, whenever an entry is left
out, a node is settled or one of its links is followed, holds of the last state. -/
theorem explore_keeps {P : SearchState α → Prop} {Q : Label α → Prop}
    (hskip : ∀ state entry rest, P state → state.frontier.pop? = some (entry, rest) →
      P { state with frontier := rest })
    (hclose : ∀ state entry rest label, P state → state.frontier.pop? = some (entry, rest) →
      Live state entry label → ¬ maxCost < entry.cost →
        Q label ∧ P (SearchState.close { state with frontier := rest } entry.node label))
    (hrelax : ∀ near id before after, Q near → P before →
      Relaxed search direction near before id after → P after) (entries : Nat) :
    ∀ state, P state → Ok (search.explore direction maxCost target entries state) P := by
  induction entries with
  | zero => exact fun state h => Ok.pure h
  | succ entries ih =>
    intro state h
    cases hpop : state.frontier.pop? with
    | none =>
      rw [explore_done hpop]
      exact Ok.pure h
    | some popped =>
      obtain ⟨entry, rest⟩ := popped
      obtain hstale | ⟨label, hlive⟩ := stale_or_live state entry
      · rw [explore_skip hpop hstale]
        exact ih _ (hskip state entry rest h hpop)
      · by_cases hbound : maxCost < entry.cost
        · rw [explore_stop hpop hlive hbound]
          exact Ok.pure (hskip state entry rest h hpop)
        · rw [explore_settle hpop hlive hbound]
          obtain ⟨hlabel, hclosed⟩ := hclose state entry rest label h hpop hlive hbound
          refine Ok.bind (ok_settle hclosed fun id before after =>
            hrelax label id before after hlabel) fun state' h' => ?_
          split
          · exact Ok.pure h'
          · exact ih _ h'

/-- What holds of the label of the root, and with a label of every one that it is offered for, holds
of all labels of a tree. -/
theorem run_labels {Q : Label α → Prop} {tree : PathTree α} (hstart : Q (rootLabel rootTime))
    (hsettled : ∀ label, Q label → Q { label with settled := true })
    (hoffer : ∀ near id link label, Q near → search.Offers direction near id link label → Q label)
    (htree : search.run root rootTime direction maxCost target = .ok tree)
    (hlabel : tree.label? node = some label) : Q label := by
  obtain ⟨hroot, final, hfinal, rfl⟩ := run_eq_ok.mp htree
  have hlabels : Ok (search.explore direction maxCost target (search.network.linkCount + 1)
      (search.start root rootTime)) fun final =>
        ∀ node label, final.labelAt node = some label → Q label := by
    refine explore_keeps (Q := Q) (fun _ _ _ h _ => h)
      (fun state entry rest label h hpop hlive _ =>
        ⟨h _ _ hlive.known, fun node known hknown => ?_⟩)
      (fun near id before after hnear h hrelaxed => ?_) _ _ fun node label h => ?_
    · obtain ⟨-, rfl⟩ | ⟨-, hknown⟩ :=
        SearchState.labelAt_close_cases (SearchState.lt_of_labelAt hlive.known) hknown
      · exact hsettled label (h _ _ hlive.known)
      · exact h _ _ hknown
    · cases hrelaxed with
      | refused => exact h
      | taken hoffers hfar =>
        intro node known hknown
        obtain ⟨-, rfl⟩ | ⟨-, hknown⟩ := SearchState.labelAt_lower_cases hfar hknown
        · exact hoffer near _ _ _ hnear hoffers
        · exact h _ _ hknown
    · obtain ⟨-, rfl⟩ := (labelAt_start hroot).mp h
      exact hstart
  exact hlabels final hfinal node label (SearchState.label?_tree.mp hlabel).1

/-- The label of a settled node stays as it is. -/
theorem Relaxed.labelAt_eq (h : Relaxed search direction near state id state')
    (hlabel : state.labelAt node = some label) (hsettled : label.settled = true) :
    state'.labelAt node = some label := by
  cases h with
  | refused => exact hlabel
  | taken _ _ hopen _ =>
    refine (SearchState.labelAt_lower_of_ne ?_).trans hlabel
    rintro rfl
    rw [hopen label hlabel] at hsettled
    cases hsettled

theorem explore_labelAt (entries : Nat) (hlabel : state.labelAt node = some label)
    (hsettled : label.settled = true) :
    Ok (search.explore direction maxCost target entries state) fun final =>
      final.labelAt node = some label := by
  refine explore_keeps (Q := fun _ => True) (fun _ _ _ h _ => h)
    (fun state entry rest opened h _ hlive _ => ⟨trivial, ?_⟩)
    (fun _ _ _ _ _ h hrelaxed => hrelaxed.labelAt_eq h hsettled) entries state hlabel
  refine (SearchState.labelAt_close_of_ne ?_).trans h
  rintro rfl
  rw [hlive.isOpen label h] at hsettled
  cases hsettled

/-! ## Where a search stops -/

theorem settle_of_ne (h : target ≠ some node) :
    search.settle direction target state node label =
      search.settle direction none state node label := by
  unfold settle
  rw [if_neg h, if_neg nofun]

theorem settle_target :
    search.settle direction (some node) state node label = .ok (state.close node label) := by
  unfold settle
  exact if_pos rfl

variable [LawfulScalar α]

/-- The whole search never stops at an entry. -/
theorem explore_whole {entries : Nat} (hpop : state.frontier.pop? = some (entry, rest))
    (hlive : Live state entry label) :
    search.explore direction Scalar.infinity none (entries + 1) state =
      search.settle direction none { state with frontier := rest } entry.node label >>=
        search.explore direction Scalar.infinity none entries :=
  explore_settle hpop hlive (Scalar.not_infinity_lt _)

/-- A search that stops early fails only as the whole search does. -/
theorem explore_fails {e : Failure (RoadError α)} (entries : Nat) :
    ∀ state, search.explore direction maxCost target entries state = .error e →
      search.explore direction Scalar.infinity none entries state = .error e := by
  induction entries with
  | zero => exact fun state h => nomatch h
  | succ entries ih =>
    intro state h
    cases hpop : state.frontier.pop? with
    | none =>
      rw [explore_done hpop] at h
      cases h
    | some popped =>
      obtain ⟨entry, rest⟩ := popped
      obtain hstale | ⟨label, hlive⟩ := stale_or_live state entry
      · rw [explore_skip hpop hstale] at h ⊢
        exact ih _ h
      · by_cases hbound : maxCost < entry.cost
        · rw [explore_stop hpop hlive hbound] at h
          cases h
        rw [explore_settle hpop hlive hbound] at h
        rw [explore_whole hpop hlive]
        by_cases htarget : target = some entry.node
        · subst htarget
          rw [settle_target] at h
          cases h.symm.trans (if_pos rfl)
        · simp only [if_neg htarget, settle_of_ne htarget] at h
          cases hsettle : search.settle direction none { state with frontier := rest } entry.node
              label with
          | error e' =>
            rw [hsettle] at h
            exact h
          | ok state' =>
            rw [hsettle] at h
            exact ih state' h

/-! ## Costs in the frontier -/

/-- Costs are numbers, and no entry of the frontier is cheaper than its node. -/
structure Queued (state : SearchState α) : Prop where
  valid : state.frontier.Valid
  isNumber : ∀ node label, state.labelAt node = some label → Scalar.IsNumber label.cost
  entries : ∀ entry ∈ state.frontier.toList, ∃ label, state.labelAt entry.node = some label ∧
    label.cost ≤ entry.cost

namespace Queued

theorem skip (h : Queued state) (hpop : state.frontier.pop? = some (entry, rest)) :
    Queued { state with frontier := rest } :=
  have hpopped := h.valid.pop hpop
  ⟨hpopped.valid, h.isNumber, fun other hother => h.entries other (hpopped.mem_of_rest hother)⟩

/-- A live entry has the cost of its node. -/
theorem cost_le (h : Queued state) (hpop : state.frontier.pop? = some (entry, rest))
    (hlive : Live state entry label) : label.cost ≤ entry.cost := by
  obtain ⟨known, hknown, hcost⟩ := h.entries entry (h.valid.pop hpop).mem_top
  obtain rfl := Option.some.inj (hknown.symm.trans hlive.known)
  exact hcost

theorem le_cost (h : Queued state) (hpop : state.frontier.pop? = some (entry, rest))
    (hlive : Live state entry label) : entry.cost ≤ label.cost :=
  Scalar.le_of_not_lt (h.isNumber _ _ hlive.known)
    (Scalar.isNumber_right (h.cost_le hpop hlive)) hlive.not_cheaper

/-- What leaves the frontier first is the cheapest. -/
theorem first_le (h : Queued state) (hpop : state.frontier.pop? = some (entry, rest))
    {other : Frontier.Entry α} (hother : other ∈ state.frontier.toList) :
    entry.cost ≤ other.cost := by
  have hpopped := h.valid.pop hpop
  have hnumber : ∀ e ∈ state.frontier.toList, Scalar.IsNumber e.cost := fun e he => by
    obtain ⟨label, -, hcost⟩ := h.entries e he
    exact Scalar.isNumber_right hcost
  exact Scalar.le_of_not_lt (hnumber other hother) (hnumber entry hpopped.mem_top)
    (Frontier.Entry.not_cost_lt (hpopped.first other hother))

theorem close (h : Queued state) (hpop : state.frontier.pop? = some (entry, rest))
    (hlive : Live state entry label) :
    Queued (SearchState.close { state with frontier := rest } entry.node label) := by
  have hskip := h.skip hpop
  refine ⟨hskip.valid, fun node known hknown => ?_, fun other hother => ?_⟩
  · obtain ⟨-, rfl⟩ | ⟨-, hknown⟩ :=
      SearchState.labelAt_close_cases (SearchState.lt_of_labelAt hlive.known) hknown
    · exact h.isNumber entry.node label hlive.known
    · exact h.isNumber _ _ hknown
  · obtain ⟨known, hknown, hcost⟩ := hskip.entries other hother
    have hlabel : SearchState.labelAt { state with frontier := rest } entry.node = some label :=
      hlive.known
    obtain ⟨known', hknown', hsame⟩ := SearchState.exists_labelAt_close hlabel hknown
    exact ⟨known', hknown', hsame ▸ hcost⟩

theorem relax (h : Queued state) (hnear : Scalar.IsNumber near.cost)
    (hrelaxed : Relaxed search direction near state id state') : Queued state' := by
  cases hrelaxed with
  | refused => exact h
  | @taken link label hoffer hfar hopen hlower =>
    obtain ⟨linkCost, hfinite, -, hcost⟩ := hoffer.exists_cost
    have hnumber : Scalar.IsNumber label.cost := hcost ▸ Scalar.isNumber_add hnear hfinite
    refine ⟨h.valid.push _, fun node known hknown => ?_, fun other hother => ?_⟩
    · obtain ⟨-, rfl⟩ | ⟨-, hknown⟩ := SearchState.labelAt_lower_cases hfar hknown
      · exact hnumber
      · exact h.isNumber _ _ hknown
    · rcases List.mem_cons.mp ((Frontier.toList_push h.valid _).mem_iff.mp hother) with rfl | hother
      · exact ⟨label, SearchState.labelAt_lower_self hfar, Scalar.le_refl hnumber⟩
      · obtain ⟨known, hknown, hle⟩ := h.entries other hother
        by_cases hnode : other.node = direction.farEnd link
        · rw [hnode] at hknown ⊢
          rw [hknown] at hlower
          exact ⟨label, SearchState.labelAt_lower_self hfar,
            Scalar.le_trans (Scalar.le_of_lt hlower) hle⟩
        · exact ⟨known, (SearchState.labelAt_lower_of_ne hnode).trans hknown, hle⟩

end Queued

theorem queued_start (hroot : search.network.contains root = true) :
    Queued (search.start root rootTime) := by
  have hzero : Scalar.IsNumber (0 : α) := Scalar.isNumber_of_isFinite LawfulScalar.isFinite_zero
  refine ⟨Frontier.Valid.empty.push _, fun node label hlabel => ?_, fun entry hentry => ?_⟩
  · obtain ⟨-, rfl⟩ := (labelAt_start hroot).mp hlabel
    exact hzero
  · have hperm := Frontier.toList_push (Frontier.Valid.empty (α := α)) ⟨0, root⟩
    rcases List.mem_cons.mp (hperm.mem_iff.mp hentry) with rfl | hentry
    · exact ⟨rootLabel rootTime, (labelAt_start hroot).mpr ⟨rfl, rfl⟩, Scalar.le_refl hzero⟩
    · exact absurd hentry List.not_mem_nil

/-! ## Beyond a bound -/

/-- Nothing in the frontier is within a bound, and neither is a settled node that `known` does not
hold. -/
structure Beyond (bound : α) (known : SearchState α) (state : SearchState α) : Prop
    extends Queued state where
  frontier : ∀ entry ∈ state.frontier.toList, bound < entry.cost
  settled : ∀ node label, state.labelAt node = some label → label.settled = true →
    known.labelAt node = some label ∨ bound < label.cost

/-- Once the frontier is beyond a bound, all that is settled later is, too. -/
theorem explore_beyond {bound : α} {known : SearchState α} (entries : Nat)
    (h : Beyond bound known state) :
    Ok (search.explore direction maxCost target entries state) (Beyond bound known) := by
  refine explore_keeps (Q := fun near => bound < near.cost) (fun state entry rest h hpop => ?_)
    (fun state entry rest label h hpop hlive _ => ?_)
    (fun near id before after hnear h hrelaxed => ?_) entries state h
  · have hpopped := h.valid.pop hpop
    exact ⟨h.skip hpop, fun other hother => h.frontier other (hpopped.mem_of_rest hother),
      h.settled⟩
  · have hbound : bound < label.cost := Scalar.lt_of_lt_of_le
      (h.frontier entry (h.valid.pop hpop).mem_top) (h.le_cost hpop hlive)
    refine ⟨hbound, h.close hpop hlive,
      fun other hother => h.frontier other ((h.valid.pop hpop).mem_of_rest hother),
      fun node found hfound hsettled => ?_⟩
    obtain ⟨-, rfl⟩ | ⟨-, hfound⟩ :=
      SearchState.labelAt_close_cases (SearchState.lt_of_labelAt hlive.known) hfound
    · exact .inr hbound
    · exact h.settled node found hfound hsettled
  · have hqueued := h.relax (Scalar.isNumber_right (Scalar.le_of_lt hnear)) hrelaxed
    cases hrelaxed with
    | refused => exact h
    | @taken link label hoffer hfar hopen hlower =>
      obtain ⟨linkCost, hfinite, hnegative, hcost⟩ := hoffer.exists_cost
      have hbound : bound < label.cost := by
        refine Scalar.lt_of_lt_of_le hnear (hcost ▸ LawfulScalar.le_add ?_ hnegative)
        exact Scalar.isNumber_add (Scalar.isNumber_right (Scalar.le_of_lt hnear)) hfinite
      refine ⟨hqueued, fun other hother => ?_, fun node found hfound hsettled => ?_⟩
      · rcases List.mem_cons.mp ((Frontier.toList_push h.valid _).mem_iff.mp hother) with
          rfl | hother
        · exact hbound
        · exact h.frontier other hother
      · exact h.settled node found
          (SearchState.labelAt_of_lower hfar hoffer.unsettled hfound hsettled) hsettled

/-- The bounded search settles nothing beyond its bound. -/
theorem explore_within (entries : Nat) (h : Queued state)
    (hwithin : ∀ node label, state.labelAt node = some label → label.settled = true →
      ¬ maxCost < label.cost) :
    Ok (search.explore direction maxCost target entries state) fun final =>
      ∀ node label, final.labelAt node = some label → label.settled = true →
        ¬ maxCost < label.cost := by
  refine Ok.mono (explore_keeps (Q := fun near => Scalar.IsNumber near.cost)
    (P := fun state => Queued state ∧ ∀ node label, state.labelAt node = some label →
      label.settled = true → ¬ maxCost < label.cost)
    (fun state entry rest h hpop => ⟨h.1.skip hpop, h.2⟩)
    (fun state entry rest label h hpop hlive hbound => ?_)
    (fun near id before after hnear h hrelaxed => ⟨h.1.relax hnear hrelaxed, ?_⟩)
    entries state ⟨h, hwithin⟩) fun final h => h.2
  · refine ⟨h.1.isNumber _ _ hlive.known, h.1.close hpop hlive,
      fun node found hfound hsettled => ?_⟩
    obtain ⟨-, rfl⟩ | ⟨-, hfound⟩ :=
      SearchState.labelAt_close_cases (SearchState.lt_of_labelAt hlive.known) hfound
    · intro hlt
      exact hbound (Scalar.lt_of_lt_of_le (show maxCost < label.cost from hlt)
        (h.1.cost_le hpop hlive))
    · exact h.2 node found hfound hsettled
  · cases hrelaxed with
    | refused => exact h.2
    | taken hoffer hfar hopen hlower =>
      exact fun node found hfound hsettled => h.2 node found
        (SearchState.labelAt_of_lower hfar hoffer.unsettled hfound hsettled) hsettled

/-! ## The two searches -/

/-- What a search that stopped early has settled is settled for good. What else the whole search
settles is beyond the bound, unless the target was settled first. -/
structure Stopped (maxCost : α) (target : Option NodeId) (stopped final : SearchState α) :
    Prop where
  kept : ∀ node label, stopped.labelAt node = some label → label.settled = true →
    final.labelAt node = some label
  settled : (∃ node label, target = some node ∧ stopped.labelAt node = some label ∧
      label.settled = true) ∨
    ∀ node label, final.labelAt node = some label → label.settled = true →
      stopped.labelAt node = some label ∨ maxCost < label.cost

theorem explore_stopped (entries : Nat) : ∀ state stopped final, Queued state →
    search.explore direction maxCost target entries state = .ok stopped →
    search.explore direction Scalar.infinity none entries state = .ok final →
    Stopped maxCost target stopped final := by
  induction entries with
  | zero =>
    intro state stopped final h hstopped hfinal
    cases hstopped
    cases hfinal
    exact ⟨fun _ _ hlabel _ => hlabel, .inr fun _ _ hlabel _ => .inl hlabel⟩
  | succ entries ih =>
    intro state stopped final h hstopped hfinal
    cases hpop : state.frontier.pop? with
    | none =>
      rw [explore_done hpop] at hstopped hfinal
      cases hstopped
      cases hfinal
      exact ⟨fun _ _ hlabel _ => hlabel, .inr fun _ _ hlabel _ => .inl hlabel⟩
    | some popped =>
      obtain ⟨entry, rest⟩ := popped
      obtain hstale | ⟨label, hlive⟩ := stale_or_live state entry
      · rw [explore_skip hpop hstale] at hstopped hfinal
        exact ih _ stopped final (h.skip hpop) hstopped hfinal
      by_cases hbound : maxCost < entry.cost
      · -- The whole search goes on from a frontier that is beyond the bound.
        rw [explore_stop hpop hlive hbound] at hstopped
        cases hstopped
        have hbeyond : Beyond maxCost state state := ⟨h, fun other hother =>
          Scalar.lt_of_lt_of_le hbound (h.first_le hpop hother), fun _ _ hlabel _ => .inl hlabel⟩
        refine ⟨fun node found hfound hsettled => ?_,
          .inr (explore_beyond (entries + 1) hbeyond final hfinal).settled⟩
        have hlabel : state.labelAt node = some found := hfound
        exact explore_labelAt (entries + 1) hlabel hsettled final hfinal
      rw [explore_settle hpop hlive hbound] at hstopped
      rw [explore_whole hpop hlive] at hfinal
      obtain ⟨after, hafter, hfinal⟩ := bind_eq_ok.mp hfinal
      have hnumber := h.isNumber _ _ hlive.known
      by_cases htarget : target = some entry.node
      · subst htarget
        rw [settle_target] at hstopped
        cases hstopped.symm.trans (if_pos rfl)
        refine ⟨fun node found hfound hsettled => ?_, .inl ⟨entry.node, _, rfl,
          SearchState.labelAt_close_self (SearchState.lt_of_labelAt hlive.known), rfl⟩⟩
        refine explore_labelAt entries ?_ hsettled final hfinal
        exact ok_settle (P := fun state => state.labelAt node = some found) hfound
          (fun _ _ _ h hrelaxed => hrelaxed.labelAt_eq h hsettled) after hafter
      · simp only [if_neg htarget, settle_of_ne htarget] at hstopped
        rw [hafter] at hstopped
        refine ih after stopped final ?_ hstopped hfinal
        exact ok_settle (h.close hpop hlive) (fun _ _ _ h hrelaxed => h.relax hnumber hrelaxed)
          after hafter

/-! ## Trees -/

theorem run_fails {e : Failure (RoadError α)}
    (h : search.run root rootTime direction maxCost target = .error e) :
    search.run root rootTime direction Scalar.infinity none = .error e := by
  by_cases hroot : search.network.contains root = true
  · rw [run_eq hroot] at h ⊢
    cases hexplore : search.explore direction maxCost target (search.network.linkCount + 1)
        (search.start root rootTime) with
    | error e' =>
      rw [hexplore] at h
      rw [explore_fails _ _ hexplore]
      exact h
    | ok state =>
      rw [hexplore] at h
      cases h
  · unfold run at h ⊢
    rw [if_neg hroot] at h ⊢
    exact h

/-- Where the whole search succeeds, so does the one that stops early. -/
theorem exists_stopped {full : PathTree α}
    (hfull : search.run root rootTime direction Scalar.infinity none = .ok full) (maxCost : α)
    (target : Option NodeId) :
    ∃ stopped final, Stopped maxCost target stopped final ∧
      search.run root rootTime direction maxCost target =
        .ok (stopped.tree root direction rootTime) ∧
      full = final.tree root direction rootTime ∧
      ∀ node label, stopped.labelAt node = some label → label.settled = true →
        ¬ maxCost < label.cost := by
  have hroot := contains_of_run hfull
  cases hrun : search.run root rootTime direction maxCost target with
  | error e =>
    rw [run_fails hrun] at hfull
    cases hfull
  | ok tree =>
    obtain ⟨-, stopped, hstopped, rfl⟩ := run_eq_ok.mp hrun
    obtain ⟨-, final, hfinal, rfl⟩ := run_eq_ok.mp hfull
    refine ⟨stopped, final, explore_stopped _ _ _ _ (queued_start hroot) hstopped hfinal, rfl, rfl,
      explore_within _ (queued_start hroot) (fun node label hlabel hsettled => ?_) stopped hstopped⟩
    obtain ⟨-, rfl⟩ := (labelAt_start hroot).mp hlabel
    cases hsettled

/-- The tree with a bound has the labels of the whole tree within the bound. -/
theorem exists_bounded_tree {full : PathTree α}
    (hfull : search.run root rootTime direction Scalar.infinity none = .ok full) (maxCost : α) :
    ∃ tree, search.run root rootTime direction maxCost none = .ok tree ∧
      tree.rootTime = rootTime ∧
      ∀ node, tree.label? node = (full.label? node).filter fun label => ¬ maxCost < label.cost := by
  obtain ⟨stopped, final, hstopped, hrun, rfl, hwithin⟩ := exists_stopped hfull maxCost none
  refine ⟨_, hrun, rfl, fun node => Option.ext fun label => ?_⟩
  rw [Option.filter_eq_some_iff, SearchState.label?_tree, SearchState.label?_tree,
    decide_eq_true_iff]
  constructor
  · rintro ⟨hlabel, hsettled⟩
    exact ⟨⟨hstopped.kept node label hlabel hsettled, hsettled⟩,
      hwithin node label hlabel hsettled⟩
  · rintro ⟨⟨hlabel, hsettled⟩, hbound⟩
    rcases hstopped.settled with ⟨node, label, htarget, -⟩ | hreached
    · cases htarget
    · exact ⟨(hreached node label hlabel hsettled).resolve_right hbound, hsettled⟩

/-- The tree of a search for a target has only labels that the whole tree has, too, and it has the
one of the target if the whole tree has one. -/
theorem exists_target_tree {full : PathTree α}
    (hfull : search.run root rootTime direction Scalar.infinity none = .ok full)
    (target : NodeId) :
    ∃ tree, search.run root rootTime direction Scalar.infinity (some target) = .ok tree ∧
      tree.label? target = full.label? target ∧
      ∀ node label, tree.label? node = some label → full.label? node = some label := by
  obtain ⟨stopped, final, hstopped, hrun, rfl, -⟩ :=
    exists_stopped hfull Scalar.infinity (some target)
  have hkept : ∀ node label, (stopped.tree root direction rootTime).label? node = some label →
      (final.tree root direction rootTime).label? node = some label := by
    intro node label hlabel
    obtain ⟨hlabel, hsettled⟩ := SearchState.label?_tree.mp hlabel
    exact SearchState.label?_tree.mpr ⟨hstopped.kept node label hlabel hsettled, hsettled⟩
  refine ⟨_, hrun, Option.ext fun label => ⟨hkept target label, fun hlabel => ?_⟩, hkept⟩
  obtain ⟨hlabel, hsettled⟩ := SearchState.label?_tree.mp hlabel
  rcases hstopped.settled with ⟨node, found, htarget, hfound, hsettled'⟩ | hreached
  · obtain rfl := Option.some.inj htarget
    rw [hstopped.kept _ _ hfound hsettled'] at hlabel
    exact SearchState.label?_tree.mpr ⟨Option.some.inj hlabel ▸ hfound, hsettled⟩
  · exact SearchState.label?_tree.mpr
      ⟨(hreached target label hlabel hsettled).resolve_right (Scalar.not_infinity_lt _), hsettled⟩

end RoadSearch

end ZoneSkims
