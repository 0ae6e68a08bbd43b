/-!
# Outcomes

A calculation can end in two ways other than a result. A *fault* belongs to the domain: an unknown
stop, a negative cost. It has a type of its own in every part of the library. A *breach* is the
violation of a condition that callers promise, such as a position outside an array; no calculation
goes on after one.

* `Breach`: the conditions that can be violated.
* `Failure`, `Outcome`: a fault or a breach, and calculations that can end in one.
-/

namespace ZoneSkims

/-- A condition on the use of an operation that did not hold. -/
inductive Breach where
  /-- A position outside an array or a block. -/
  | outOfRange
  /-- The first link, by position, with an end that is no node of the network. -/
  | strayLink (link : Nat)
  /-- Time bins need a length above 0. -/
  | binSize
  /-- A matrix cell cannot hold an undefined value. -/
  | undefinedCell
  /-- Blocks of rows must follow each other from the first row on. -/
  | rowPartition
  /-- A range of scalars whose ends are undefined or in the wrong order. -/
  | emptyRange
  /-- Weights whose total is not finite. -/
  | weightTotal
  /-- Points that have to be put in order although a component or a distance is undefined. -/
  | noOrder
  deriving DecidableEq

/-- The words for a breach, if it has any. -/
def Breach.message? : Breach → Option String
  | .strayLink link => some s!"link {link} references a node outside the network"
  | .binSize => some "bin size must be positive"
  | .undefinedCell => some "NaN cannot be stored in a skim matrix"
  | .rowPartition => some "row partition must be contiguous"
  | .outOfRange | .emptyRange | .weightTotal | .noOrder => none

/-- Calculations without faults of their own. -/
abbrev Checked (α : Type) : Type := Except Breach α

/-- How a calculation can fail. -/
inductive Failure (ε : Type) where
  | fault (error : ε)
  | breach (breach : Breach)
  deriving DecidableEq

/-- Calculations that end in a result, a fault or a breach. -/
abbrev Outcome (ε α : Type) : Type := Except (Failure ε) α

namespace Failure

variable {ε δ : Type}

/-- The same failure with the fault restated. -/
def map (f : ε → δ) : Failure ε → Failure δ
  | fault error => fault (f error)
  | breach b => breach b

end Failure

/-- A breach ends any calculation. -/
instance {ε : Type} : MonadLift (Except Breach) (Except (Failure ε)) where
  monadLift := Except.mapError Failure.breach

/-- Ends a calculation with a fault. -/
def fail {ε α : Type} (error : ε) : Outcome ε α :=
  .error (.fault error)

/-- The element at a position of an array. -/
def fetch {α : Type} (xs : Array α) (i : Nat) : Checked α :=
  match xs[i]? with
  | some x => .ok x
  | none => .error .outOfRange

/-- The array with the element at a position replaced. -/
def store {α : Type} (xs : Array α) (i : Nat) (x : α) : Checked (Array α) :=
  if i < xs.size then .ok (xs.setIfInBounds i x) else .error .outOfRange

theorem fetch_eq_ok {α : Type} {xs : Array α} {i : Nat} {x : α} :
    fetch xs i = .ok x ↔ xs[i]? = some x := by
  unfold fetch
  split <;> simp_all

theorem fetch_of_lt {α : Type} {xs : Array α} {i : Nat} (h : i < xs.size) :
    fetch xs i = .ok xs[i] := by
  simp [fetch, h]

theorem store_of_lt {α : Type} {xs : Array α} {i : Nat} {x : α} (h : i < xs.size) :
    store xs i x = .ok (xs.setIfInBounds i x) := by
  simp [store, h]

end ZoneSkims
