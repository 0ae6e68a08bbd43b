import ZoneSkims.Id
import ZoneSkims.Scalar

/-!
# Frontiers

The frontier of a search holds the nodes that were reached and may still be left, each with its
cost. The cheapest comes first, and of equal costs the node with the lowest id, so that the order
in which nodes leave the frontier is the same in every run.

It is a pairing heap: every entry comes before those of its children, and the children of an entry
form a chain of siblings.

* `Frontier.push`: one more entry.
* `Frontier.pop?`: the first entry and the others.
-/

namespace ZoneSkims

/-- A node of the frontier. -/
structure Frontier.Entry (α : Type) where
  cost : α
  node : NodeId

namespace Frontier.Entry

variable {α : Type} [Scalar α]

/-- By cost, then by node. -/
def compare (a b : Frontier.Entry α) : Ordering :=
  (Scalar.order a.cost b.cost).then (Ord.compare a.node.raw b.node.raw)

/-- `a` leaves the frontier before `b`, or they are alike. -/
def precedes (a b : Frontier.Entry α) : Bool :=
  (a.compare b).isLE

end Frontier.Entry

/-- A chain of heaps. A frontier is a chain of at most one. -/
inductive Frontier (α : Type) where
  | empty
  | heap (top : Frontier.Entry α) (children siblings : Frontier α)

namespace Frontier

variable {α : Type}

/-- The entries in no particular order. -/
def toList : Frontier α → List (Frontier.Entry α)
  | empty => []
  | heap top children siblings => top :: (children.toList ++ siblings.toList)

variable [Scalar α]

/-- The first heap of each of two chains joined into one: the later top becomes a child of the
earlier one. -/
def meld : Frontier α → Frontier α → Frontier α
  | empty, other => other
  | frontier, empty => frontier
  | heap a as _, heap b bs _ =>
    if a.precedes b then heap a (heap b bs as) empty else heap b (heap a as bs) empty

/-- The heaps of a chain joined into one, first in pairs and then from the last pair on. -/
def meldAll : Frontier α → Frontier α
  | empty => empty
  | heap a as empty => heap a as empty
  | heap a as (heap b bs rest) => meld (meld (heap a as empty) (heap b bs empty)) (meldAll rest)

def push (frontier : Frontier α) (entry : Frontier.Entry α) : Frontier α :=
  meld (heap entry empty empty) frontier

/-- The first entry, and the frontier without it. -/
def pop? : Frontier α → Option (Frontier.Entry α × Frontier α)
  | empty => none
  | heap top children _ => some (top, meldAll children)

end Frontier

end ZoneSkims
