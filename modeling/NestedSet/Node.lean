import NestedSet.Nesting
import NestedSet.Value

/-!
# Nodes

A node has an identity, markers, a recorded parent, and a payload of values
that are known by field names.
-/

set_option autoImplicit false

namespace NestedSet

abbrev Payload := List (String × Value)

structure Node where
  id : Int
  left : Int
  right : Int
  parent : Option Int
  payload : Payload
  deriving DecidableEq, Repr

namespace Node

def bounds (n : Node) : Bounds := ⟨n.left, n.right⟩

def shape (n : Node) : Shape := ⟨n.id, n.bounds, n.parent⟩

def get? (n : Node) (field : String) : Option Value := n.payload.lookup field

def text? (n : Node) (field : String) : Option String :=
  match n.get? field with
  | some (.text s) => some s
  | _ => none

end Node

inductive Placement where
  /-- The first node of an empty tree. -/
  | root
  | firstChildOf (id : Int)
  /-- The next sibling, under the same parent. -/
  | after (id : Int)
  deriving DecidableEq, Repr

inductive MoveOutcome where
  | moved
  /-- The target is the node itself; nothing was written. -/
  | alreadyInPlace
  deriving DecidableEq, Repr

inductive Side where
  | left
  | right
  deriving DecidableEq, Repr

inductive Neighbor where
  | sibling (node : Node)
  | parent (node : Node)
  deriving DecidableEq, Repr

end NestedSet
