import ZoneSkims.Proofs.Matrix.PartialMap

/-!
# Sequences of operations on matrices

A program keeps matrices by name and works on them step by step. Every sequence of steps gives the
same answers on matrices as on partial maps, and leaves matrices that mean those maps, as long as it
does not add an infinity to the opposite one.

* `MatrixStep`: a step, on matrices and on maps. `MatrixStep.run`: what a sequence of steps leaves.
* `MatrixStep.toMap_onMatrices`: one step on matrices is the step on maps.
* `MatrixStep.run_refines`: a whole sequence on matrices is the sequence on maps.
-/

namespace ZoneSkims

variable {κ ι β : Type}

/-! ## Storages stay in order -/

namespace Matrix

variable [DecidableEq ι] [Scalar β] {m m' other : Matrix ι β} {row col : ι}

theorem sound_of_new {rowIds colIds : Array ι} (h : new rowIds colIds = .ok m) : m.Sound := by
  rw [new, distinct, distinct] at h
  cases hrows : firstRepeat? rowIds.toList with
  | some i => simp [hrows, bind, Except.bind] at h
  | none =>
    cases hcols : firstRepeat? colIds.toList with
    | some i => simp [hrows, hcols, bind, Except.bind] at h
    | none =>
      simp only [hrows, hcols, bind, Except.bind, pure, Except.pure] at h
      cases h
      refine ⟨firstRepeat?_eq_none.mp hrows, firstRepeat?_eq_none.mp hcols, ?_, fun hvalue => ?_⟩
      · exact Array.size_replicate
      · rw [get?_unset] at hvalue
        cases hvalue

/-- A matrix stands for a map. Every pair of its ids has a place of its own inside the storage, and
every value is a number. -/
structure Represents (m : Matrix ι β) (map : PartialMap ι β) : Prop where
  rowIds : m.rowIds.toList = map.rowIds
  colIds : m.colIds.toList = map.colIds
  get? (row col : ι) : m.get? row col = map.value row col
  slot {row col : ι} : row ∈ map.rowIds → col ∈ map.colIds →
    ∃ place < m.cells.size, m.slot row col = .ok place
  slot_inj {row col row' col' : ι} {place : Nat} : m.slot row col = .ok place →
    m.slot row' col' = .ok place → row = row' ∧ col = col'
  isNumber {row col : ι} {value : β} : map.value row col = some value → Scalar.IsNumber value

omit [Scalar β] in
theorem slot_eq_ok {place : Nat} :
    m.slot row col = .ok place ↔ m.toMap.Knows [row] [col] ∧ m.place row col = place := by
  rw [slot_eq, PartialMap.require_map_eq_ok, eq_comm (a := place)]

theorem Sound.represents (h : m.Sound) : m.Represents m.toMap where
  rowIds := rfl
  colIds := rfl
  get? _ _ := rfl
  slot hrow hcol :=
    have hknown := PartialMap.knows_singleton.mpr ⟨hrow, hcol⟩
    ⟨_, place_lt_size h.wellFormed hknown, slot_eq_ok.mpr ⟨hknown, rfl⟩⟩
  slot_inj hplace hplace' := by
    obtain ⟨hknown, rfl⟩ := slot_eq_ok.mp hplace
    obtain ⟨hknown', heq⟩ := slot_eq_ok.mp hplace'
    exact place_inj hknown hknown' heq.symm
  isNumber := h.isNumber

theorem isNumber_of_cellOf {a v : β} (h : cellOf a = some v) : Scalar.IsNumber v := by
  rw [cellOf] at h
  split_ifs at h with ha
  cases h
  exact Bool.eq_false_iff.mpr ha

theorem isNumber_of_increase {cell : Option β} {a v : β} (h : increase cell a = some v) :
    Scalar.IsNumber v := by
  cases cell with
  | none => exact isNumber_of_cellOf h
  | some c => exact isNumber_of_cellOf h

theorem Sound.modify (h : m.Sound) {change : Option β → Option β}
    (hchange : ∀ cell v, change cell = some v → Scalar.IsNumber v)
    (hm : m.modify row col change = .ok m') : m'.Sound := by
  rw [modify_eq, PartialMap.require_map_eq_ok] at hm
  obtain ⟨hknown, rfl⟩ := hm
  refine ⟨h.nodup_rowIds, h.nodup_colIds, ?_, fun {r c v} hvalue => ?_⟩
  · exact Array.size_modify.trans h.wellFormed
  · rw [get?_modify_cells h.wellFormed hknown] at hvalue
    split_ifs at hvalue
    · exact hchange _ v hvalue
    · exact h.isNumber hvalue

theorem Sound.set (h : m.Sound) {value : β} (hm : m.set row col value = .ok m') : m'.Sound := by
  rw [Matrix.set] at hm
  split_ifs at hm with hvalue
  exact h.modify (fun _ v hv => Option.some.inj hv ▸ Bool.eq_false_iff.mpr hvalue) hm

theorem Sound.add (h : m.Sound) {value : β} (hm : m.add row col value = .ok m') : m'.Sound := by
  rw [Matrix.add] at hm
  split_ifs at hm
  exact h.modify (fun _ v hv => isNumber_of_increase hv) hm

theorem Sound.scale [LawfulSum β] (h : m.Sound) (factor : β) : (m.scale factor).Sound := by
  refine ⟨h.nodup_rowIds, h.nodup_colIds, wellFormed_scale h.wellFormed factor, fun hvalue => ?_⟩
  rw [get?_scale, Option.map_eq_some_iff] at hvalue
  obtain ⟨current, -, rfl⟩ := hvalue
  rw [scaled]
  split_ifs with hnan
  · exact LawfulSum.isNumber_zero
  · exact Bool.eq_false_iff.mpr hnan

omit [DecidableEq ι] in
theorem size_increaseAt (cells : Array (Option β)) (slots : List Nat) (values : List (Option β)) :
    (increaseAt cells slots values).size = cells.size := by
  refine List.foldlRecOn (motive := fun cells' : Array (Option β) => cells'.size = cells.size)
    _ _ rfl fun cells' hsize entry _ => ?_
  obtain ⟨slot, value⟩ := entry
  cases value with
  | none => exact hsize
  | some v => exact Array.size_modify.trans hsize

theorem Sound.combine (h : m.Sound) (hother : other.Sound) (hm : m.combine other = .ok m') :
    m'.Sound := by
  rw [combine_eq_map, PartialMap.require_map_eq_ok] at hm
  obtain ⟨hknown, rfl⟩ := hm
  refine ⟨h.nodup_rowIds, h.nodup_colIds, ?_, fun {r c v} hvalue => ?_⟩
  · exact (size_increaseAt ..).trans h.wellFormed
  · rw [get?_increaseAt h.wellFormed hother hknown] at hvalue
    cases hadded : other.get? r c with
    | none => exact h.isNumber (hadded ▸ hvalue)
    | some a => exact isNumber_of_increase (hadded ▸ hvalue)

end Matrix

/-! ## Steps -/

/-- A call on the matrices of a program, which are kept by name. -/
inductive MatrixStep (κ ι β : Type) where
  | new (name : κ) (rowIds colIds : Array ι)
  | set (name : κ) (row col : ι) (value : β)
  | add (name : κ) (row col : ι) (value : β)
  | scale (name : κ) (factor : β)
  /-- The other matrix may be the same one. -/
  | combine (name other : κ)

namespace MatrixStep

/-- The name whose matrix is made or changed. -/
def target : MatrixStep κ ι β → κ
  | new name _ _ => name
  | set name _ _ _ => name
  | add name _ _ _ => name
  | scale name _ => name
  | combine name _ => name

section Act

variable [DecidableEq ι] [Scalar β]

/-- The matrix that a step makes. -/
def onMatrices (store : κ → Matrix ι β) : MatrixStep κ ι β → Except MatrixError (Matrix ι β)
  | new _ rowIds colIds => Matrix.new rowIds colIds
  | set name row col value => (store name).set row col value
  | add name row col value => (store name).add row col value
  | scale name factor => .ok ((store name).scale factor)
  | combine name other => (store name).combine (store other)

/-- The map that a step makes. -/
def onMaps (maps : κ → PartialMap ι β) : MatrixStep κ ι β → Except MatrixError (PartialMap ι β)
  | new _ rowIds colIds => PartialMap.new rowIds.toList colIds.toList
  | set name row col value => (maps name).set row col value
  | add name row col value => (maps name).add row col value
  | scale name factor => .ok ((maps name).scale factor)
  | combine name other => (maps name).combine (maps other)

/-- The value that a step adds to a pair of ids of its map. A refused step adds none. -/
def added? (maps : κ → PartialMap ι β) (row col : ι) : MatrixStep κ ι β → Option β
  | add _ r c value => if row = r ∧ col = c then some value else none
  | combine name other =>
    if (maps name).Knows (maps other).rowIds (maps other).colIds then (maps other).value row col
    else none
  | _ => none

/-- The step adds an infinity to the opposite one, at a pair of ids of its map. -/
def Cancels (maps : κ → PartialMap ι β) (row col : ι) (step : MatrixStep κ ι β) : Prop :=
  ∃ current ∈ (maps step.target).value row col, ∃ value ∈ step.added? maps row col,
    Scalar.Opposite current value

/-- The step adds no infinity to the opposite one. -/
def Compatible (maps : κ → PartialMap ι β) (step : MatrixStep κ ι β) : Prop :=
  ∀ row col, ¬ step.Cancels maps row col

end Act

/-! ## Runs -/

section Run

variable {σ : Type} [DecidableEq κ]

/-- What is kept after a result. An error leaves everything as it was. -/
def settle (store : κ → σ) (name : κ) : Except MatrixError σ → κ → σ
  | .ok result => Function.update store name result
  | .error _ => store

/-- What is kept after a sequence of steps, and the answer of each step. -/
def run (act : (κ → σ) → MatrixStep κ ι β → Except MatrixError σ) (store : κ → σ) :
    List (MatrixStep κ ι β) → (κ → σ) × List (Except MatrixError Unit)
  | [] => (store, [])
  | step :: steps =>
    let result := act store step
    let rest := run act (settle store step.target result) steps
    (rest.1, result.map (fun _ => ()) :: rest.2)

variable [DecidableEq ι] [Scalar β]

/-- No step of a sequence adds an infinity to the opposite one. -/
def AllCompatible (maps : κ → PartialMap ι β) : List (MatrixStep κ ι β) → Prop
  | [] => True
  | step :: steps => step.Compatible maps ∧
      AllCompatible (settle maps step.target (step.onMaps maps)) steps

end Run

/-! ## One step -/

variable [DecidableEq ι] [Scalar β] {store : κ → Matrix ι β}

/-- What the matrices mean. -/
def meaning (store : κ → Matrix ι β) : κ → PartialMap ι β := fun name => (store name).toMap

variable [LawfulSum β]

/-- One step on matrices is the step on the maps that they mean. -/
theorem toMap_onMatrices (h : ∀ name, (store name).Sound) {step : MatrixStep κ ι β}
    (hstep : step.Compatible (meaning store)) :
    (step.onMatrices store).map Matrix.toMap = step.onMaps (meaning store) := by
  cases step with
  | new name rowIds colIds => exact Matrix.toMap_new rowIds colIds
  | set name row col value => exact Matrix.toMap_set (h name).wellFormed row col value
  | add name row col value =>
    refine Matrix.toMap_add (h name) fun current hcurrent => ?_
    exact fun hopposite =>
      hstep row col ⟨current, hcurrent, value, by simp [added?], hopposite⟩
  | scale name factor => exact congrArg Except.ok (Matrix.toMap_scale (store name) factor)
  | combine name other =>
    refine Matrix.toMap_combine (h name) (h other) fun hknown row col current value hcur hval =>
      fun hopposite => hstep row col ⟨current, hcur, value, ?_, hopposite⟩
    change (if (store name).toMap.Knows (store other).toMap.rowIds (store other).toMap.colIds then
      (store other).get? row col else none) = some value
    rw [if_pos hknown, hval]

/-- Every step leaves a storage in order. -/
theorem sound_of_onMatrices (h : ∀ name, (store name).Sound) {step : MatrixStep κ ι β}
    {m : Matrix ι β} (hm : step.onMatrices store = .ok m) : m.Sound := by
  cases step with
  | new name rowIds colIds => exact Matrix.sound_of_new hm
  | set name row col value => exact (h name).set hm
  | add name row col value => exact (h name).add hm
  | scale name factor =>
    cases hm
    exact (h name).scale factor
  | combine name other => exact (h name).combine (h other) hm

/-! ## All steps -/

variable [DecidableEq κ]

omit [Scalar β] [LawfulSum β] in
theorem meaning_settle (store : κ → Matrix ι β) (name : κ)
    (result : Except MatrixError (Matrix ι β)) :
    meaning (settle store name result) =
      settle (meaning store) name (result.map Matrix.toMap) := by
  cases result with
  | error e => rfl
  | ok m => exact Function.comp_update Matrix.toMap store name m

theorem sound_settle (h : ∀ name, (store name).Sound) (step : MatrixStep κ ι β) (name : κ) :
    (settle store step.target (step.onMatrices store) name).Sound := by
  cases hresult : step.onMatrices store with
  | error e => exact h name
  | ok m =>
    change (Function.update store step.target m name).Sound
    rw [Function.update_apply]
    split_ifs
    · exact sound_of_onMatrices h hresult
    · exact h name

/-- Storages stay in order along every run. -/
theorem sound_run (h : ∀ name, (store name).Sound) (steps : List (MatrixStep κ ι β)) (name : κ) :
    ((run onMatrices store steps).1 name).Sound := by
  induction steps generalizing store with
  | nil => exact h name
  | cons step steps ih => exact ih (sound_settle h step)

/-- A run on matrices is the run on the maps that they mean. -/
theorem meaning_run (h : ∀ name, (store name).Sound) {steps : List (MatrixStep κ ι β)}
    (hsteps : AllCompatible (meaning store) steps) :
    (run onMatrices store steps).2 = (run onMaps (meaning store) steps).2 ∧
      meaning (run onMatrices store steps).1 = (run onMaps (meaning store) steps).1 := by
  induction steps generalizing store with
  | nil => exact ⟨rfl, rfl⟩
  | cons step steps ih =>
    have hstep := toMap_onMatrices h hsteps.1
    have hnext : meaning (settle store step.target (step.onMatrices store)) =
        settle (meaning store) step.target (step.onMaps (meaning store)) := by
      rw [meaning_settle, hstep]
    have hanswer : (step.onMatrices store).map (fun _ => ()) =
        (step.onMaps (meaning store)).map (fun _ => ()) := by
      rw [← hstep]
      cases step.onMatrices store <;> rfl
    obtain ⟨hanswers, hmeaning⟩ := ih (sound_settle h step) (hnext ▸ hsteps.2)
    rw [hnext] at hanswers hmeaning
    exact ⟨congrArg₂ List.cons hanswer hanswers, hmeaning⟩

omit [LawfulSum β] in
theorem sound_blank (ids : Array ι) (h : ids.toList.Nodup) :
    (Matrix.blank ids : Matrix ι β).Sound :=
  ⟨h, h, Matrix.wellFormed_blank ids, fun hvalue => by
    rw [Matrix.blank, Matrix.get?_unset] at hvalue
    cases hvalue⟩

/-- Every sequence of steps gives the same answers on matrices as on partial maps, and leaves
matrices that stand for those maps, as long as no infinity is added to the opposite one. -/
theorem run_refines {steps : List (MatrixStep κ ι β)}
    (hsteps : AllCompatible (fun _ => PartialMap.empty) steps) :
    (run onMatrices (fun _ => Matrix.blank #[]) steps).2 =
        (run onMaps (fun _ => PartialMap.empty) steps).2 ∧
      ∀ name, ((run onMatrices (fun _ => Matrix.blank #[]) steps).1 name).Represents
        ((run onMaps (fun _ => PartialMap.empty) steps).1 name) := by
  have hblank (name : κ) : (Matrix.blank #[] : Matrix ι β).Sound :=
    sound_blank #[] List.nodup_nil
  have hempty : meaning (fun _ : κ => (Matrix.blank #[] : Matrix ι β)) =
      fun _ => PartialMap.empty :=
    funext fun _ => PartialMap.ext rfl rfl
      (funext fun row => funext fun col => Matrix.get?_unset #[] #[] 0 row col)
  obtain ⟨hanswers, hmeaning⟩ := meaning_run hblank (hempty ▸ hsteps)
  rw [hempty] at hanswers hmeaning
  refine ⟨hanswers, fun name => ?_⟩
  rw [← hmeaning]
  exact (sound_run hblank steps name).represents

/-! ### A run on two matrices -/

instance [DecidableEq β] (a b : β) : Decidable (Scalar.Opposite a b) :=
  inferInstanceAs (Decidable (_ ∨ _))

instance [DecidableEq β] (maps : κ → PartialMap ι β) (row col : ι) (step : MatrixStep κ ι β) :
    Decidable (step.Cancels maps row col) :=
  inferInstanceAs (Decidable (∃ _, _))

instance [DecidableEq β] [Fintype ι] (maps : κ → PartialMap ι β) (step : MatrixStep κ ι β) :
    Decidable (step.Compatible maps) :=
  inferInstanceAs (Decidable (∀ _, _))

instance decidableAllCompatible [DecidableEq β] [Fintype ι] (maps : κ → PartialMap ι β)
    (steps : List (MatrixStep κ ι β)) : Decidable (AllCompatible maps steps) :=
  match steps with
  | [] => isTrue trivial
  | step :: steps =>
    have := decidableAllCompatible (settle maps step.target (step.onMaps maps)) steps
    inferInstanceAs (Decidable (_ ∧ _))

end MatrixStep

/-- Two matrices over the ids false and true, in another order for rows and columns, and one of them
over a part of the ids. The second one is added to the first, and the first to itself. -/
def ledger : List (MatrixStep Bool Bool Float32) :=
  [.new false #[false, true] #[true, false], .new true #[true] #[false, true],
    .set false true true 2, .add true true false (1 / 0), .add true false false 1,
    .combine false true, .combine false false, .combine true false, .scale false 0]

theorem run_refines_ledger :
    MatrixStep.AllCompatible (fun _ => PartialMap.empty) ledger ∧
      (MatrixStep.run MatrixStep.onMatrices (fun _ => Matrix.blank #[]) ledger).2 =
        [.ok (), .ok (), .ok (), .ok (), .error (.unknownId .row), .ok (), .ok (),
          .error (.unknownId .row), .ok ()] ∧
      ((MatrixStep.run MatrixStep.onMaps (fun _ => PartialMap.empty) ledger).1 false).value
        true false = some 0 := by
  have hledger : MatrixStep.AllCompatible (fun _ => PartialMap.empty) ledger := by decide +kernel
  refine ⟨hledger, (MatrixStep.run_refines hledger).1.trans (by decide +kernel), ?_⟩
  rw [← ((MatrixStep.run_refines hledger).2 false).get?]
  decide +kernel

end ZoneSkims
