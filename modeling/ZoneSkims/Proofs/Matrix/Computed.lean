import ZoneSkims.Proofs.Matrix.Refinement

/-!
# Computed cells

A cell that was computed stays so through every step that stores, adds or scales, with one
exception: an infinity that is added to the opposite one leaves the cell as if it had never been
computed. So the number of computed cells never falls along a run without such an addition.

* `MatrixStep.isSome_iff_not_cancels`: which steps a computed cell survives.
* `MatrixStep.computed_of_spared`: computed cells along a run.
* `not_computed_forever`: the exception.
-/

namespace ZoneSkims

variable {κ ι β : Type} [DecidableEq ι]

namespace Matrix

variable [Scalar β] {m m' : Matrix ι β}

/-- The computed cells are the pairs of ids that have a value. -/
theorem Sound.computedCount_eq (h : m.Sound) :
    m.computedCount = m.toMap.pairs.countP fun pair => (m.get? pair.1 pair.2).isSome := by
  rw [computedCount, ← Array.countP_toList, h.toList_cells, List.countP_map]
  rfl

/-- A matrix over the same ids with no fewer values has no fewer computed cells. -/
theorem Sound.computedCount_le (h : m.Sound) (h' : m'.Sound)
    (hrows : m'.rowIds = m.rowIds) (hcols : m'.colIds = m.colIds)
    (hsome : ∀ row col, (m.get? row col).isSome → (m'.get? row col).isSome) :
    m.computedCount ≤ m'.computedCount := by
  have hpairs : m'.toMap.pairs = m.toMap.pairs := by
    rw [PartialMap.pairs, PartialMap.pairs, toMap, toMap, hrows, hcols]
  rw [h.computedCount_eq, h'.computedCount_eq, hpairs]
  exact List.countP_mono_left fun pair _ => hsome pair.1 pair.2

variable [LawfulSum β]

/-- An addition to a computed cell leaves it computed unless it mixes opposite infinities. -/
theorem isSome_increase {current value : β} (hcurrent : Scalar.IsNumber current)
    (hvalue : Scalar.IsNumber value) :
    (increase (some current) value).isSome ↔ ¬ Scalar.Opposite current value := by
  have hsum : Scalar.IsNumber (current + value) ↔ ¬ Scalar.Opposite current value := by
    rw [LawfulSum.isNumber_add_iff]
    simp only [hcurrent, hvalue, true_and]
  rw [← hsum, increase, cellOf, Scalar.IsNumber]
  cases Scalar.isNaN (current + value) <;> simp

end Matrix

namespace MatrixStep

variable [Scalar β]

/-- The step makes a new matrix, and does not change one. -/
def Remakes (name : κ) : MatrixStep κ ι β → Prop
  | new name' _ _ => name' = name
  | _ => False

variable [LawfulSum β] {store : κ → Matrix ι β} {step : MatrixStep κ ι β} {m : Matrix ι β}

omit [LawfulSum β] in
theorem cancels_iff {maps : κ → PartialMap ι β} {row col : ι} {current : β}
    (h : (maps step.target).value row col = some current) :
    step.Cancels maps row col ↔
      ∃ value ∈ step.added? maps row col, Scalar.Opposite current value := by
  rw [Cancels, h]
  simp only [Option.mem_some_iff, exists_eq_left']

/-- A computed cell survives every step but an addition of the opposite infinity. -/
theorem isSome_iff_not_cancels (h : ∀ name, (store name).Sound)
    (hnew : ¬ step.Remakes step.target) (hm : step.onMatrices store = .ok m) {row col : ι}
    (hsome : ((store step.target).get? row col).isSome) :
    (m.get? row col).isSome ↔ ¬ step.Cancels (meaning store) row col := by
  obtain ⟨current, hcurrent⟩ := Option.isSome_iff_exists.mp hsome
  have hnumber := (h _).isNumber hcurrent
  cases step with
  | new name rowIds colIds => exact absurd rfl hnew
  | set name r c value =>
    rw [onMatrices, Matrix.set] at hm
    split_ifs at hm
    have hcancels : ¬ (set name r c value).Cancels (meaning store) row col := by
      rintro ⟨_, _, _, hadded, _⟩
      cases hadded
    rw [Matrix.get?_of_modify (h name).wellFormed hm]
    split_ifs
    · exact iff_of_true rfl hcancels
    · exact iff_of_true hsome hcancels
  | add name r c value =>
    rw [onMatrices, Matrix.add] at hm
    split_ifs at hm with hvalue
    rw [Matrix.get?_of_modify (h name).wellFormed hm, cancels_iff hcurrent]
    change _ ↔ ¬ ∃ v ∈ if row = r ∧ col = c then some value else none, _
    split_ifs with hsame
    · obtain ⟨rfl, rfl⟩ := hsame
      rw [show (store name).get? row col = some current from hcurrent,
        Matrix.isSome_increase hnumber (Bool.eq_false_iff.mpr hvalue)]
      simp
    · refine iff_of_true hsome ?_
      rintro ⟨_, hadded, _⟩
      cases hadded
  | scale name factor =>
    cases hm
    rw [Matrix.get?_scale, cancels_iff hcurrent]
    refine iff_of_true (by rw [Option.isSome_map]; exact hsome) ?_
    rintro ⟨_, hadded, _⟩
    cases hadded
  | combine name other =>
    rw [onMatrices, Matrix.combine_eq_map, PartialMap.require_map_eq_ok] at hm
    obtain ⟨hknown, rfl⟩ := hm
    rw [Matrix.get?_increaseAt (h name).wellFormed (h other) hknown, cancels_iff hcurrent]
    change _ ↔ ¬ ∃ v ∈ if (store name).toMap.Knows (store other).toMap.rowIds
      (store other).toMap.colIds then (store other).get? row col else none, _
    rw [if_pos hknown, show (store name).get? row col = some current from hcurrent]
    cases hadded : (store other).get? row col with
    | none => simp [increasedBy]
    | some value =>
      rw [increasedBy, Matrix.isSome_increase hnumber ((h other).isNumber hadded)]
      simp

omit [LawfulSum β] in
/-- The ids of a matrix stay as they are when it is changed. -/
theorem ids_onMatrices (hnew : ¬ step.Remakes step.target) (hm : step.onMatrices store = .ok m) :
    m.rowIds = (store step.target).rowIds ∧ m.colIds = (store step.target).colIds := by
  cases step with
  | new name rowIds colIds => exact absurd rfl hnew
  | set name r c value =>
    rw [onMatrices, Matrix.set] at hm
    split_ifs at hm
    rw [Matrix.modify_eq, PartialMap.require_map_eq_ok] at hm
    exact hm.2 ▸ ⟨rfl, rfl⟩
  | add name r c value =>
    rw [onMatrices, Matrix.add] at hm
    split_ifs at hm
    rw [Matrix.modify_eq, PartialMap.require_map_eq_ok] at hm
    exact hm.2 ▸ ⟨rfl, rfl⟩
  | scale name factor => exact Except.ok.inj hm ▸ ⟨rfl, rfl⟩
  | combine name other =>
    rw [onMatrices, Matrix.combine_eq_map, PartialMap.require_map_eq_ok] at hm
    exact hm.2 ▸ ⟨rfl, rfl⟩

/-! ## Runs -/

variable [DecidableEq κ]

/-- No step of a run adds an infinity to the opposite one in a cell of a matrix. -/
def Spares (name : κ) (row col : ι) (store : κ → Matrix ι β) : List (MatrixStep κ ι β) → Prop
  | [] => True
  | step :: steps => (step.target = name → ¬ step.Cancels (meaning store) row col) ∧
      Spares name row col (settle store step.target (step.onMatrices store)) steps

omit [DecidableEq ι] [Scalar β] [LawfulSum β] in
/-- A step changes the matrix of its own name alone. -/
theorem settle_of_ne {name : κ} (hname : step.target ≠ name)
    (result : Except MatrixError (Matrix ι β)) :
    settle store step.target result name = store name := by
  cases result with
  | error e => rfl
  | ok m => exact Function.update_of_ne hname.symm m store

omit [LawfulSum β] in
theorem settle_self (hm : step.onMatrices store = .ok m) :
    settle store step.target (step.onMatrices store) step.target = m := by
  rw [hm]
  exact Function.update_self ..

theorem isSome_settle (h : ∀ name, (store name).Sound) {name : κ} (hnew : ¬ step.Remakes name)
    {row col : ι} (hspares : step.target = name → ¬ step.Cancels (meaning store) row col)
    (hsome : ((store name).get? row col).isSome) :
    ((settle store step.target (step.onMatrices store) name).get? row col).isSome := by
  by_cases hname : step.target = name
  · subst hname
    cases hm : step.onMatrices store with
    | error e => exact hsome
    | ok m =>
      rw [← hm, settle_self hm]
      exact (isSome_iff_not_cancels h hnew hm hsome).mpr (hspares rfl)
  · rwa [settle_of_ne hname]

omit [LawfulSum β] in
theorem ids_settle (store : κ → Matrix ι β) {name : κ} (hnew : ¬ step.Remakes name) :
    (settle store step.target (step.onMatrices store) name).rowIds = (store name).rowIds ∧
      (settle store step.target (step.onMatrices store) name).colIds = (store name).colIds := by
  by_cases hname : step.target = name
  · subst hname
    cases hm : step.onMatrices store with
    | error e => exact ⟨rfl, rfl⟩
    | ok m =>
      rw [← hm, settle_self hm]
      exact ids_onMatrices hnew hm
  · rw [settle_of_ne hname]
    exact ⟨rfl, rfl⟩

theorem isSome_run (h : ∀ name, (store name).Sound) {steps : List (MatrixStep κ ι β)} {name : κ}
    (hnew : ∀ step ∈ steps, ¬ step.Remakes name) {row col : ι}
    (hspares : Spares name row col store steps) (hsome : ((store name).get? row col).isSome) :
    (((run onMatrices store steps).1 name).get? row col).isSome := by
  induction steps generalizing store with
  | nil => exact hsome
  | cons step steps ih =>
    rw [List.forall_mem_cons] at hnew
    exact ih (sound_settle h step) hnew.2 hspares.2 (isSome_settle h hnew.1 hspares.1 hsome)

omit [LawfulSum β] in
theorem ids_run (store : κ → Matrix ι β) {steps : List (MatrixStep κ ι β)} {name : κ}
    (hnew : ∀ step ∈ steps, ¬ step.Remakes name) :
    ((run onMatrices store steps).1 name).rowIds = (store name).rowIds ∧
      ((run onMatrices store steps).1 name).colIds = (store name).colIds := by
  induction steps generalizing store with
  | nil => exact ⟨rfl, rfl⟩
  | cons step steps ih =>
    rw [List.forall_mem_cons] at hnew
    have hids := ids_settle store hnew.1
    exact ⟨(ih _ hnew.2).1.trans hids.1, (ih _ hnew.2).2.trans hids.2⟩

/-- A computed cell stays computed along every run that adds no infinity to the opposite one in it.
When this holds of all cells of a matrix, the number of its computed cells never falls. -/
theorem computed_of_spared (h : ∀ name, (store name).Sound) {steps : List (MatrixStep κ ι β)}
    {name : κ} (hnew : ∀ step ∈ steps, ¬ step.Remakes name) :
    (∀ row col, Spares name row col store steps → ((store name).get? row col).isSome →
      (((run onMatrices store steps).1 name).get? row col).isSome) ∧
    ((∀ row col, Spares name row col store steps) →
      (store name).computedCount ≤ ((run onMatrices store steps).1 name).computedCount) := by
  refine ⟨fun row col hspares => isSome_run h hnew hspares, fun hspares => ?_⟩
  obtain ⟨hrows, hcols⟩ := ids_run store hnew
  exact (h name).computedCount_le (sound_run h steps name) hrows hcols
    fun row col => isSome_run h hnew (hspares row col)

instance decidableSpares [DecidableEq β] (name : κ) (row col : ι) (store : κ → Matrix ι β)
    (steps : List (MatrixStep κ ι β)) : Decidable (Spares name row col store steps) :=
  match steps with
  | [] => isTrue trivial
  | step :: steps =>
    have := decidableSpares name row col (settle store step.target (step.onMatrices store)) steps
    inferInstanceAs (Decidable (_ ∧ _))

end MatrixStep

/-- The matrices of the ledger before the first one takes part in a sum. -/
def openLedger : Bool → Matrix Bool Float32 :=
  (MatrixStep.run MatrixStep.onMatrices (fun _ => Matrix.blank #[]) (ledger.take 4)).1

theorem computed_of_spared_ledger :
    (∀ name, (openLedger name).Sound) ∧
      (∀ step ∈ ledger.drop 4, ¬ step.Remakes false) ∧
      (∀ row col, MatrixStep.Spares false row col openLedger (ledger.drop 4)) ∧
      (openLedger false).computedCount = 1 ∧
      (((MatrixStep.run MatrixStep.onMatrices openLedger (ledger.drop 4)).1 false).get?
        true true).isSome ∧
      1 ≤ ((MatrixStep.run MatrixStep.onMatrices openLedger (ledger.drop 4)).1
        false).computedCount := by
  have hsound (name : Bool) : (openLedger name).Sound :=
    MatrixStep.sound_run (fun _ => MatrixStep.sound_blank #[] List.nodup_nil) _ name
  have hnew : ∀ step ∈ ledger.drop 4, ¬ step.Remakes false := by
    simp [ledger, MatrixStep.Remakes]
  have hspares (row col : Bool) :
      MatrixStep.Spares false row col openLedger (ledger.drop 4) := by
    revert row col
    decide +kernel
  have hcount : (openLedger false).computedCount = 1 := by decide +kernel
  obtain ⟨hcomputed, hcounts⟩ := MatrixStep.computed_of_spared hsound hnew
  exact ⟨hsound, hnew, hspares, hcount, hcomputed true true (hspares true true) (by decide +kernel),
    hcount ▸ hcounts hspares⟩

/-! ## Opposite infinities -/

/-- A matrix of one cell that is set to infinity and then increased by minus infinity. -/
def cancelled : List (MatrixStep Unit Unit Float32) :=
  [.new () #[()] #[()], .set () () () Scalar.infinity, .add () () () (-Scalar.infinity)]

/-- All calls succeed, and the only computed cell of the matrix is not computed any more. -/
theorem not_computed_forever :
    (MatrixStep.run MatrixStep.onMatrices (fun _ => Matrix.blank #[]) cancelled).2 =
        [.ok (), .ok (), .ok ()] ∧
      (((MatrixStep.run MatrixStep.onMatrices (fun _ => Matrix.blank #[])
        (cancelled.take 2)).1 ()).get? () () = some Scalar.infinity ∧
      ((MatrixStep.run MatrixStep.onMatrices (fun _ => Matrix.blank #[])
        (cancelled.take 2)).1 ()).computedCount = 1) ∧
      (((MatrixStep.run MatrixStep.onMatrices (fun _ => Matrix.blank #[])
        cancelled).1 ()).get? () () = none ∧
      ((MatrixStep.run MatrixStep.onMatrices (fun _ => Matrix.blank #[])
        cancelled).1 ()).computedCount = 0) := by
  decide +kernel

end ZoneSkims
