import ZoneSkims.Proofs.Skim.Configuration
import ZoneSkims.Proofs.Work
import ZoneSkims.Skim.Calculator

/-!
# What a run ends in

A run passes its notices on, and its result depends on them in no other way. A calculator has the
zones with a usable coordinate, in the order of the table that they come from.

* `Run.result`, `Run.Performs`: the result of a run, and the work that it does.
* `Calculator.Made`, `Calculator.made_of_new`: what is known of a calculator.
-/

namespace ZoneSkims

variable {α β γ δ : Type}

/-! ## Runs -/

namespace Run

/-- The result of a run that starts with some notices. -/
def result (x : Run α γ) (log : List (Notice α)) : Outcome (RunError α) γ := (x.run log).1

/-- The notices at the end of a run. -/
def notices (x : Run α γ) (log : List (Notice α)) : List (Notice α) := (x.run log).2

theorem result_bind (x : Run α β) (f : β → Run α γ) (log : List (Notice α)) :
    (x >>= f).result log = x.result log >>= fun b => (f b).result (x.notices log) := by
  change (ExceptT.bindCont f (x.result log) (x.notices log)).1 = _
  cases x.result log <;> rfl

@[simp] theorem result_pure (a : γ) (log : List (Notice α)) :
    (pure a : Run α γ).result log = .ok a := rfl

@[simp] theorem result_notify (notice : Notice α) (log : List (Notice α)) :
    (notify notice).result log = .ok () := rfl

@[simp] theorem result_ofOutcome (x : Outcome (RunError α) γ) (log : List (Notice α)) :
    (ofOutcome x).result log = x := rfl

theorem result_orFault {ε : Type} (restate : ε → RunError α) (x : Except ε γ)
    (log : List (Notice α)) :
    (orFault restate x).result log = x.mapError fun error => .fault (restate error) := rfl

/-- A calculation that succeeds goes on with its value. -/
theorem orFault_ok {ε : Type} {restate : ε → RunError α} {x : Except ε γ} {a : γ}
    (h : x = .ok a) : orFault restate x = pure a := by
  rw [h]
  rfl

/-- A run that succeeds was given a value where a calculation of its own had to succeed. -/
theorem exists_of_orFault {ε : Type} {restate : ε → RunError α} {x : Except ε β} {f : β → Run α γ}
    {log : List (Notice α)} {c : γ} (h : (orFault restate x >>= f).result log = .ok c) :
    ∃ b, x = .ok b ∧ (f b).result log = .ok c := by
  cases hx : x with
  | ok b =>
    rw [orFault_ok hx, pure_bind] at h
    exact ⟨b, rfl, h⟩
  | error e =>
    rw [result_bind, result_orFault, hx] at h
    cases h

/-- The run does the work of all pieces, whatever was told before. -/
def Performs (work : Nat → Outcome (RunError α) δ) (pieces : List Nat) (x : Run α γ) (value : γ) :
    Prop :=
  ∀ log, ZoneSkims.Performs work pieces (x.result log) value

namespace Performs

variable {work : Nat → Outcome (RunError α) δ} {pieces : List Nat}

theorem ofOutcome {x : Outcome (RunError α) γ} {a : γ} (h : ZoneSkims.Performs work pieces x a) :
    Performs work pieces (ofOutcome x) a :=
  fun _ => h

/-- Notices do not matter. -/
theorem notify {x : Run α γ} {a : γ} (notice : Notice α) (h : Performs work pieces x a) :
    Performs work pieces (do Run.notify notice; x) a := by
  intro log
  rw [result_bind]
  exact h _

theorem notifyIf {x : Run α γ} {a : γ} (c : Prop) [Decidable c] (notice : Notice α)
    (h : Performs work pieces x a) :
    Performs work pieces (do
      if c then Run.notify notice
      x) a := by
  split
  · exact h.notify notice
  · exact h

theorem map_work {ζ : Type} {x : Run α γ} {a : γ} (h : Performs work pieces x a) (g : δ → ζ) :
    Performs (fun i => g <$> work i) pieces x a :=
  fun log => (h log).map_work g

theorem map {x : Run α β} {b : β} (h : Performs work pieces x b) (g : β → γ) :
    Performs work pieces (do let b ← x; return g b) (g b) := by
  intro log
  rw [result_bind]
  exact (h log).map g

/-- A run without work of its own. -/
theorem pure {a : γ} (work : Nat → Outcome (RunError α) δ) (pieces : List Nat)
    (h : ∀ i ∈ pieces, ∃ d, work i = .ok d) : Performs work pieces (pure a : Run α γ) a :=
  fun _ => ⟨fun _ => rfl, fun i hi e he => by
    obtain ⟨d, hd⟩ := h i hi
    rw [hd] at he
    cases he⟩

theorem andThen {ζ η : Type} {next : Nat → Outcome (RunError α) ζ} {x : Run α β} {b : β}
    {f : β → Run α γ} {c : γ} (hx : Performs work pieces x b) (hf : Performs next pieces (f b) c)
    (g : δ → ζ → η) :
    Performs (fun i => do let d ← work i; let z ← next i; return g d z) pieces (x >>= f) c := by
  intro log
  rw [result_bind]
  exact (hx log).andThen (hf _) g

/-- What all pieces need is part of the work of each. -/
theorem prepared {π : Type} {prepare : Outcome (RunError α) π} {f : π → Run α γ} {a : γ}
    {work : π → Nat → Outcome (RunError α) δ} (hne : pieces ≠ [])
    (h : ∀ p, prepare = .ok p → Performs (work p) pieces (f p) a) :
    Performs (fun i => do let p ← prepare; work p i) pieces (Run.ofOutcome prepare >>= f) a := by
  intro log
  rw [result_bind, result_ofOutcome]
  cases hp : prepare with
  | ok p => exact h p hp _
  | error e =>
    obtain ⟨i, rest, rfl⟩ := List.exists_cons_of_ne_nil hne
    refine ⟨fun hwork => ?_, fun j hj e' he' => ⟨j, hj, e', he', ?_⟩⟩
    · obtain ⟨d, hd⟩ := hwork i List.mem_cons_self
      cases hd
    · cases he'
      rfl

end Performs

end Run

/-! ## Calculators -/

variable [Scalar α]

/-- The zones of a table with a usable coordinate. -/
def Zones.ofTable (coords : ZoneTable (List (Coord α))) : List (Zone α) :=
  coords.filterMap fun (id, coords) => Zone.ofCoords? id coords

theorem Zone.id_of_ofCoords? {id : ZoneId} {coords : List (Coord α)} {zone : Zone α}
    (h : Zone.ofCoords? id coords = some zone) : zone.id = id := by
  simp only [Zone.ofCoords?] at h
  split at h
  · cases h
  · cases h
    rfl

/-- Zones with a usable coordinate have the ids of their table, in its order. -/
theorem Zones.ids_ofTable (coords : ZoneTable (List (Coord α))) :
    List.Sublist ((Zones.ofTable coords).map Zone.id) (coords.map Prod.fst) := by
  induction coords with
  | nil => exact List.Sublist.slnil
  | cons entry coords ih =>
    obtain ⟨id, points⟩ := entry
    cases h : Zone.ofCoords? id points with
    | none =>
      simp only [Zones.ofTable, List.filterMap_cons, h]
      exact ih.cons id
    | some zone =>
      simp only [Zones.ofTable, List.filterMap_cons, h, List.map_cons, Zone.id_of_ofCoords? h]
      exact ih.cons_cons id

theorem Zones.ne_nil_of_ids {coords : ZoneTable (List (Coord α))} {first : ZoneId}
    {others : List ZoneId} (h : (Zones.ofTable coords).map Zone.id = first :: others) :
    Zones.ofTable coords ≠ [] := by
  intro hnil
  rw [hnil] at h
  cases h

theorem Zones.new_eq (coords : ZoneTable (List (Coord α))) (log : List (Notice α)) :
    (Zones.new coords log).1 = { zones := (Zones.ofTable coords).toArray
                                 dropped := coords.length - (Zones.ofTable coords).length } := by
  simp only [Zones.new]
  split <;> rfl

/-- The centres of two zones are within a radius, if there is one. -/
def Zone.isNear (origin : Zone α) (radius : Option α) (destination : Zone α) : Bool :=
  radius.all fun r => decide (origin.centroid.distance destination.centroid ≤ r)

theorem within_eq {zones : Zones α} {row col : Nat} {origin destination : Zone α}
    (radius : Option α) (horigin : zones.zones[row]? = some origin)
    (hdestination : zones.zones[col]? = some destination) :
    zones.within row col radius = .ok (origin.isNear radius destination) := by
  cases radius with
  | none => rfl
  | some r =>
    rw [Zones.within, fetch_eq_ok.mpr horigin, fetch_eq_ok.mpr hdestination]
    rfl

namespace Calculator

/-- The calculator of a configuration and a table of coordinates. -/
structure Made (config : Configuration α) (coords : ZoneTable (List (Coord α)))
    (calculator : Calculator α) : Prop where
  valid : config.Valid
  config_eq : calculator.config = config
  zones_eq : calculator.zones = { zones := (Zones.ofTable coords).toArray
                                  dropped := coords.length - (Zones.ofTable coords).length }
  nonempty : 0 < calculator.zones.size
  pool_eq : calculator.pool = Pool.ofSize config.workers

theorem made_of_new {config : Configuration α} {coords : ZoneTable (List (Coord α))}
    {log : List (Notice α)} {calculator : Calculator α}
    (h : (Calculator.new config coords).result log = .ok calculator) :
    Made config coords calculator := by
  cases hvalid : config.validate with
  | error e =>
    rw [Calculator.new, Run.result_bind, Run.result_orFault, hvalid] at h
    cases h
  | ok u =>
    rw [Calculator.new, Run.orFault_ok hvalid, pure_bind, Run.result_bind] at h
    change (Run.result (if (Zones.new coords log).1.isEmpty then _ else _) _) = _ at h
    have hzones := Zones.new_eq coords log
    by_cases hempty : (Zones.new coords log).1.isEmpty = true
    · rw [if_pos hempty] at h
      cases h
    · rw [if_neg hempty] at h
      cases h
      refine ⟨Configuration.validate_eq_ok_iff.mp hvalid, rfl, hzones, ?_, rfl⟩
      exact Nat.pos_of_ne_zero fun h0 => hempty (Array.isEmpty_iff_size_eq_zero.mpr h0)

/-- A valid configuration and a zone with a usable coordinate make a calculator. -/
theorem exists_of_valid {config : Configuration α} {coords : ZoneTable (List (Coord α))}
    (hvalid : config.Valid) (hne : Zones.ofTable coords ≠ []) (log : List (Notice α)) :
    ∃ calculator, (Calculator.new config coords).result log = .ok calculator := by
  have hempty : (Zones.new coords log).1.isEmpty = false := by
    rw [Zones.new_eq]
    simpa [Zones.isEmpty] using hne
  rw [Calculator.new, Run.orFault_ok (Configuration.validate_eq_ok_iff.mpr hvalid), pure_bind,
    Run.result_bind]
  change ∃ calculator,
    Run.result (if (Zones.new coords log).1.isEmpty then _ else _) _ = .ok calculator
  rw [hempty, if_neg (by decide)]
  exact ⟨_, rfl⟩

end Calculator

end ZoneSkims
