import ZoneSkims.Proofs.Matrix.Cells
import ZoneSkims.Proofs.Outcome
import ZoneSkims.Proofs.Scalar.Quotient
import ZoneSkims.Road.Observed

/-!
# What has been observed in a bin

The observations of all links lie in one array, link by link and bin by bin. As every time has a bin
and no bin is outside the table, a link and a time are always one place of it, and different links or
bins have different places. So a traversal changes only what is answered for its link and its bin.

* `Traversal`, `ObservedTimes.record`: a history of observations.
* `ObservedTimes.Bins`: to which bin a time belongs.
* `ObservedTimes.Holds`: every place holds what has been observed there, whatever the history.
* `ObservedTimes.binned`: the answers after any history.
-/

namespace ZoneSkims

variable {α : Type} [Scalar α]

/-- A traversal of a link: when it began, and how long it took. -/
structure Traversal (α : Type) where
  link : LinkId
  enterTime : α
  travelTime : α

namespace ObservedTimes

/-! ## Bins -/

/-- Bins of one length from midnight on. Times before midnight and undefined ones are in the first
bin, and times from `lastTime` on in the last. -/
structure Bins (observed : ObservedTimes α) (lastTime : α) : Prop where
  bin_lt : ∀ time, observed.bin time < observed.binCount
  bin_first : ∀ time, ¬ 0 ≤ time → observed.bin time = 0
  bin_inside : ∀ time, 0 ≤ time → observed.bin time =
    min (Scalar.truncate (time / observed.binSize)) (observed.binCount - 1)
  bin_last : ∀ time, lastTime ≤ time → observed.bin time = observed.binCount - 1
  bin_le : ∀ time later, time ≤ later → observed.bin time ≤ observed.bin later

theorem ceilNat_le (a : α) : Scalar.ceilNat a ≤ Scalar.truncate a + 1 := by
  unfold Scalar.ceilNat
  dsimp only
  split <;> omega

theorem bins_of_count [LawfulScalar α] [LawfulQuotient α] {observed : ObservedTimes α} {lastTime : α}
    (hsize : 0 < observed.binSize)
    (hcount : observed.binCount = max (Scalar.ceilNat (lastTime / observed.binSize)) 1) :
    observed.Bins lastTime where
  bin_lt time := by
    unfold bin
    omega
  bin_first time h := by
    rw [bin, Scalar.max_zero_of_not_le h, LawfulQuotient.truncate_zero_div hsize, Nat.zero_min]
  bin_inside time h := by rw [bin, Scalar.max_zero_of_le h]
  bin_last time h := by
    have hceil := ceilNat_le (lastTime / observed.binSize)
    have hle : lastTime ≤ Scalar.max time 0 :=
      Scalar.le_trans h (Scalar.le_max_zero (Scalar.isNumber_right h))
    have hwhole := LawfulQuotient.truncate_div_le hsize hle
    unfold bin
    omega
  bin_le time later h := by
    have hwhole := LawfulQuotient.truncate_div_le hsize (Scalar.max_zero_le_max_zero h)
    unfold bin
    omega

/-! ## Recording -/

/-- The observed times after some traversals. -/
def record (observed : ObservedTimes α) (traversals : List (Traversal α)) :
    Checked (ObservedTimes α) :=
  traversals.foldlM (fun observed t => observed.observe t.link t.enterTime t.travelTime) observed

/-- The traversal counts for a link in a bin. -/
def CountsFor (observed : ObservedTimes α) (link : LinkId) (bin : Nat) (t : Traversal α) : Prop :=
  t.link = link ∧ observed.bin t.enterTime = bin ∧ Scalar.isNonnegative t.travelTime = true

instance (observed : ObservedTimes α) (link : LinkId) (bin : Nat) (t : Traversal α) :
    Decidable (observed.CountsFor link bin t) :=
  inferInstanceAs (Decidable (_ ∧ _ ∧ _))

/-- The times of the traversals that count for a link in a bin, in the order of recording. -/
def timesIn (observed : ObservedTimes α) (traversals : List (Traversal α)) (link : LinkId)
    (bin : Nat) : List α :=
  (traversals.filter fun t => observed.CountsFor link bin t).map Traversal.travelTime

section

variable {observed : ObservedTimes α} {link : LinkId} {bin : Nat} {t : Traversal α}

theorem timesIn_concat_of_counts (traversals : List (Traversal α))
    (h : observed.CountsFor link bin t) :
    observed.timesIn (traversals ++ [t]) link bin =
      observed.timesIn traversals link bin ++ [t.travelTime] := by
  simp [timesIn, h]

theorem timesIn_concat_of_not (traversals : List (Traversal α))
    (h : ¬ observed.CountsFor link bin t) :
    observed.timesIn (traversals ++ [t]) link bin = observed.timesIn traversals link bin := by
  simp [timesIn, h]

/-- What is left out is what does not count for any link and bin. -/
theorem observe_eq [LawfulScalar α] (observed : ObservedTimes α) (t : Traversal α) :
    observed.observe t.link t.enterTime t.travelTime =
      if Scalar.isNonnegative t.travelTime = true then do
        let bin ← observed.at? t.link t.enterTime
        let bins ← store observed.bins (observed.slot t.link t.enterTime)
          ⟨bin.total + t.travelTime, bin.count + 1⟩
        return { observed with bins }
      else .ok observed := by
  have hguard : (!Scalar.isFinite t.travelTime || decide (t.travelTime < 0)) =
      !Scalar.isNonnegative t.travelTime := by
    rw [Scalar.isNonnegative]
    cases hfinite : Scalar.isFinite t.travelTime with
    | false => rfl
    | true =>
      have hnumber := Scalar.isNumber_of_isFinite hfinite
      have hzero := Scalar.isNumber_of_isFinite (LawfulScalar.isFinite_zero (α := α))
      have hiff : t.travelTime < 0 ↔ ¬ 0 ≤ t.travelTime :=
        ⟨fun h h' => Scalar.not_lt_of_le h' h, Scalar.lt_of_not_le hzero hnumber⟩
      simp [hiff]
  rw [observe, hguard]
  cases Scalar.isNonnegative t.travelTime <;> rfl

end

/-- The observations that a list of times makes, in their order. -/
def observationsOf (times : List α) : Observations α :=
  ⟨times.foldl (· + ·) 0, times.length⟩

theorem observationsOf_concat (times : List α) (time : α) :
    observationsOf (times ++ [time]) =
      ⟨(observationsOf times).total + time, (observationsOf times).count + 1⟩ := by
  rw [observationsOf, observationsOf, List.foldl_append, List.length_append]
  rfl

/-- Every place holds what has been observed on its link and in its bin. -/
structure Holds (empty : ObservedTimes α) (linkCount : Nat) (traversals : List (Traversal α))
    (observed : ObservedTimes α) : Prop where
  binSize : observed.binSize = empty.binSize
  binCount : observed.binCount = empty.binCount
  size : observed.bins.size = linkCount * empty.binCount
  bins : ∀ (link : LinkId) (bin : Nat), link.index < linkCount → bin < empty.binCount →
    observed.bins[link.index * empty.binCount + bin]? =
      some (observationsOf (empty.timesIn traversals link bin))

namespace Holds

variable {empty observed : ObservedTimes α} {linkCount : Nat} {traversals : List (Traversal α)}

theorem bin_eq (h : Holds empty linkCount traversals observed) (time : α) :
    observed.bin time = empty.bin time := by
  rw [bin, bin, h.binSize, h.binCount]

theorem slot_eq (h : Holds empty linkCount traversals observed) (link : LinkId) (time : α) :
    observed.slot link time = link.index * empty.binCount + empty.bin time := by
  rw [slot, h.bin_eq, h.binCount]

theorem at?_eq (h : Holds empty linkCount traversals observed) {link : LinkId} {time : α}
    (hlink : link.index < linkCount) (hbin : empty.bin time < empty.binCount) :
    observed.at? link time =
      .ok (observationsOf (empty.timesIn traversals link (empty.bin time))) := by
  rw [at?, h.slot_eq, fetch_eq_ok]
  exact h.bins link _ hlink hbin

/-- One more traversal of a link changes one place, that of its link and its bin. -/
theorem observe [LawfulScalar α] (h : Holds empty linkCount traversals observed) {t : Traversal α}
    (hlink : t.link.index < linkCount) (hbin : empty.bin t.enterTime < empty.binCount) :
    Returns (observed.observe t.link t.enterTime t.travelTime)
      (Holds empty linkCount (traversals ++ [t])) := by
  rw [observe_eq]
  split_ifs with hcounts
  · have hlt : observed.slot t.link t.enterTime < observed.bins.size := by
      rw [h.slot_eq, h.size]
      exact place_lt hlink hbin
    rw [h.at?_eq hlink hbin]
    refine ⟨_, bind_eq_ok.mpr ⟨_, rfl, bind_eq_ok.mpr ⟨_, store_of_lt hlt, rfl⟩⟩, h.binSize,
      h.binCount, ?_, ?_⟩
    · rw [← h.size]
      exact Array.size_setIfInBounds
    · intro link bin hlink' hbin'
      rw [h.slot_eq, Array.getElem?_setIfInBounds]
      by_cases hsame : t.link = link ∧ empty.bin t.enterTime = bin
      · obtain ⟨rfl, rfl⟩ := hsame
        rw [if_pos rfl, timesIn_concat_of_counts _ ⟨rfl, rfl, hcounts⟩, observationsOf_concat,
          if_pos (h.slot_eq t.link t.enterTime ▸ hlt)]
      · have hplace : t.link.index * empty.binCount + empty.bin t.enterTime ≠
            link.index * empty.binCount + bin := by
          intro hequal
          have hdiv := congrArg (· / empty.binCount) hequal
          have hmod := congrArg (· % empty.binCount) hequal
          simp only [place_div hbin, place_div hbin'] at hdiv
          simp only [place_mod hbin, place_mod hbin'] at hmod
          exact hsame ⟨Id.index_injective hdiv, hmod⟩
        rw [if_neg hplace, h.bins link bin hlink' hbin',
          timesIn_concat_of_not _ fun hfor => hsame ⟨hfor.1, hfor.2.1⟩]
  · refine ⟨observed, rfl, h.binSize, h.binCount, h.size, ?_⟩
    intro link bin hlink' hbin'
    rw [h.bins link bin hlink' hbin', timesIn_concat_of_not _ fun hfor => hcounts hfor.2.2]

end Holds

/-- A table of empty bins, when it is not too large. -/
theorem new_eq (network : Network α) (binSize lastTime : α) (hsize : 0 < binSize)
    (hfits : network.linkCount * max (Scalar.ceilNat (lastTime / binSize)) 1 < binLimit) :
    new network binSize lastTime = .ok
      { binSize
        binCount := max (Scalar.ceilNat (lastTime / binSize)) 1
        bins := Array.replicate
          (network.linkCount * max (Scalar.ceilNat (lastTime / binSize)) 1) ⟨0, 0⟩ } := by
  unfold new
  rw [if_pos hsize]
  exact if_neg (Nat.not_le.mpr hfits)

theorem holds_new {empty : ObservedTimes α} {linkCount : Nat}
    (h : empty.bins = Array.replicate (linkCount * empty.binCount) ⟨0, 0⟩) :
    Holds empty linkCount [] empty := by
  refine ⟨rfl, rfl, by rw [h, Array.size_replicate], ?_⟩
  intro link bin hlink hbin
  rw [h, Array.getElem?_replicate, if_pos (place_lt hlink hbin)]
  rfl

theorem holds_record [LawfulScalar α] {empty : ObservedTimes α} {linkCount : Nat}
    (hempty : Holds empty linkCount [] empty) (hbin : ∀ time, empty.bin time < empty.binCount)
    {traversals : List (Traversal α)} (hlinks : ∀ t ∈ traversals, t.link.index < linkCount) :
    Returns (empty.record traversals) (Holds empty linkCount traversals) := by
  apply Returns.foldlM (fun done => Holds empty linkCount done) hempty
  intro done t rest observed hsplit hholds
  apply hholds.observe _ (hbin _)
  apply hlinks
  rw [hsplit]
  simp

/-- The time that is answered: that in free flow without any times, and otherwise the larger of it and
the mean of the times, added up in their order. -/
def meanAtLeast (freeFlow : α) (times : List α) : α :=
  if times.length = 0 then freeFlow
  else Scalar.max (times.foldl (· + ·) 0 / Scalar.ofNat times.length) freeFlow

/-- Bins of a positive length hold exactly what has been observed on their link and in their bin.
No traversal of a link of the network is out of range, and no answer depends on what has been
observed on other links or in other bins. -/
theorem binned [LawfulScalar α] [LawfulQuotient α] (network : Network α) (binSize lastTime : α)
    (hsize : 0 < binSize)
    (hfits : network.linkCount * max (Scalar.ceilNat (lastTime / binSize)) 1 < binLimit)
    {traversals : List (Traversal α)}
    (hlinks : ∀ t ∈ traversals, t.link.index < network.linkCount) :
    ∃ empty observed : ObservedTimes α, new network binSize lastTime = .ok empty ∧
      empty.record traversals = .ok observed ∧ empty.binSize = binSize ∧ empty.Bins lastTime ∧
        ∀ link traits time, network.link link = .ok traits →
          observed.countAt link time =
              .ok (empty.timesIn traversals link (empty.bin time)).length ∧
            (observed.travelTime network).value link time =
              .ok (meanAtLeast traits.freeFlowTime
                (empty.timesIn traversals link (empty.bin time))) := by
  obtain ⟨empty, hnew, hempty, hsize', hcount⟩ : ∃ empty : ObservedTimes α,
      new network binSize lastTime = .ok empty ∧ Holds empty network.linkCount [] empty ∧
        empty.binSize = binSize ∧
          empty.binCount = max (Scalar.ceilNat (lastTime / binSize)) 1 :=
    ⟨_, new_eq network binSize lastTime hsize hfits, holds_new rfl, rfl, rfl⟩
  subst hsize'
  have hbins : empty.Bins lastTime := bins_of_count hsize hcount
  obtain ⟨observed, hrecord, hholds⟩ := holds_record hempty hbins.bin_lt hlinks
  refine ⟨empty, observed, hnew, hrecord, rfl, hbins, ?_⟩
  intro link traits time hlink
  have hlt : link.index < network.linkCount :=
    (Array.getElem?_eq_some_iff.mp (fetch_eq_ok.mp hlink)).1
  have hat := hholds.at?_eq hlt (hbins.bin_lt time)
  constructor
  · rw [countAt, hat]
    rfl
  · have hfree : network.freeFlowTime link = .ok traits.freeFlowTime := by
      rw [Network.freeFlowTime, hlink]
      rfl
    simp only [travelTime]
    exact bind_eq_ok.mpr ⟨_, hfree, bind_eq_ok.mpr ⟨_, hat, rfl⟩⟩

end ObservedTimes

/-- Two links in a row. -/
def twoLinks : Network Float :=
  { nodes := #[⟨0, 0⟩, ⟨100, 0⟩, ⟨200, 0⟩]
    links := #[{ LinkTraits.car 100 10 with source := ⟨0⟩, target := ⟨1⟩ },
      { LinkTraits.car 100 10 with source := ⟨1⟩, target := ⟨2⟩ }]
    outgoing := .ofEnds 3 [⟨0⟩, ⟨1⟩]
    incoming := .ofEnds 3 [⟨1⟩, ⟨2⟩] }

/-- Traversals before midnight and at undefined times, and one that took an undefined time. -/
def morningTraversals : List (Traversal Float) :=
  [⟨⟨0⟩, 28800, 30⟩, ⟨⟨1⟩, -5, 12⟩, ⟨⟨0⟩, 28850, 50⟩, ⟨⟨0⟩, 28850, 0 / 0⟩,
    ⟨⟨1⟩, 0 / 0, 14⟩, ⟨⟨0⟩, Scalar.infinity, 7⟩]

theorem binned_twoLinks :
    ∃ empty observed : ObservedTimes Float, ObservedTimes.new twoLinks 900 86400 = .ok empty ∧
      empty.record morningTraversals = .ok observed ∧
        observed.countAt ⟨0⟩ 28900 = .ok 2 ∧
        (observed.travelTime twoLinks).value ⟨0⟩ 28900 = .ok 40 ∧
        observed.countAt ⟨1⟩ (-1) = .ok 2 ∧
        (observed.travelTime twoLinks).value ⟨1⟩ 28900 = .ok 10 := by
  have hlinks : ∀ t ∈ morningTraversals, t.link.index < twoLinks.linkCount := by
    simp [morningTraversals, twoLinks, Network.linkCount, Id.index]
  have hsize : (0 : Float) < 900 := by decide +kernel
  obtain ⟨empty, observed, hnew, hrecord, -, -, hanswers⟩ :=
    ObservedTimes.binned twoLinks 900 86400 hsize (by decide +kernel) hlinks
  have hstart := ObservedTimes.new_eq twoLinks 900 86400 hsize (by decide +kernel)
  have hempty := Except.ok.inj (hnew.symm.trans hstart)
  obtain ⟨hcount, hmean⟩ := hanswers ⟨0⟩ _ 28900 rfl
  have hnight := (hanswers ⟨1⟩ _ (-1) rfl).1
  have hfree := (hanswers ⟨1⟩ _ 28900 rfl).2
  subst hempty
  refine ⟨_, observed, hnew, hrecord, hcount.trans ?_, hmean.trans ?_, hnight.trans ?_,
    hfree.trans ?_⟩
  · exact congrArg Except.ok (by decide +kernel)
  · exact congrArg Except.ok (by decide +kernel)
  · exact congrArg Except.ok (by decide +kernel)
  · exact congrArg Except.ok (by decide +kernel)

end ZoneSkims
