/-!
# Ids

Nodes, links, stops and routes are numbered from 0 in the order in which they are added. An id is
the 32-bit number of one of them, and the largest number stands for none.

* `Id.ofIndex?`: the id of a position, if it is a number that an element can have.
* `Id.invalid`: the number that no element has.
-/

namespace ZoneSkims

/-- What an id numbers. -/
inductive IdKind where
  | node
  | link
  | stop
  | route
  deriving DecidableEq

/-- The word for the numbered thing. -/
def IdKind.label : IdKind → String
  | node => "node"
  | link => "link"
  | stop => "stop"
  | route => "route"

/-- The number of an element of one kind. -/
structure Id (kind : IdKind) where
  raw : UInt32
  deriving DecidableEq

abbrev NodeId := Id .node
abbrev LinkId := Id .link
abbrev StopId := Id .stop
abbrev RouteId := Id .route

namespace Id

variable {kind : IdKind}

/-- The number that stands for no element. -/
def invalid : Id kind := ⟨0xFFFFFFFF⟩

instance : Inhabited (Id kind) := ⟨invalid⟩

/-- Ids are ordered as the elements were added. -/
instance : LT (Id kind) := ⟨fun a b => a.raw < b.raw⟩

instance : LE (Id kind) := ⟨fun a b => a.raw ≤ b.raw⟩

instance : DecidableLT (Id kind) := fun a b => inferInstanceAs (Decidable (a.raw < b.raw))

instance : DecidableLE (Id kind) := fun a b => inferInstanceAs (Decidable (a.raw ≤ b.raw))

/-- The position of the element. -/
def index (id : Id kind) : Nat := id.raw.toNat

/-- The number of the element at a position, of which the low 32 bits are kept. -/
def ofIndex (i : Nat) : Id kind := ⟨UInt32.ofNat i⟩

/-- The id of the element at a position, if one can be there. -/
def ofIndex? (i : Nat) : Option (Id kind) :=
  if i < 0xFFFFFFFF then some (ofIndex i) else none

def isValid (id : Id kind) : Bool := id != invalid

/-- The id as it is named in messages. -/
def name (id : Id kind) : String :=
  if id.isValid then s!"{kind.label} {id.raw}" else s!"{kind.label} <invalid>"

theorem index_ofIndex {i : Nat} (h : i < 0x100000000) : (ofIndex i : Id kind).index = i := by
  simp only [index, ofIndex, UInt32.toNat_ofNat']
  exact Nat.mod_eq_of_lt h

theorem ofIndex_index (id : Id kind) : ofIndex id.index = id := by
  simp [index, ofIndex]

theorem lt_iff_index_lt {a b : Id kind} : a < b ↔ a.index < b.index :=
  UInt32.lt_iff_toNat_lt

theorem index_injective {a b : Id kind} (h : a.index = b.index) : a = b := by
  rw [← ofIndex_index a, h, ofIndex_index]

end Id

end ZoneSkims
