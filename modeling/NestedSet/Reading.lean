import NestedSet.Record
import NestedSet.TreeError

/-!
# Reading a tree

Every answer is taken from the records of one tree, which are given in a list
by increasing row id. A reader picks records by their cells and reads only
those as nodes. One that goes by markers looks for the record next to a
boundary or for the records within a range.
-/

set_option autoImplicit false

namespace NestedSet

def Record.orderValue (order : OrderKey) (r : Record) : Value :=
  match order with
  | .left => r.left.value
  | .right => r.right.value
  | .id => r.id.value
  | .parent => r.parent.value
  | .field f => (r.payload.lookup f.name).getD .null

namespace Reading

def first (records : List Record) (meets : Record → Bool) : Except Refusal (Option Node) :=
  match records.find? meets with
  | none => .ok none
  | some r => some <$> r.node

def all (records : List Record) : Except Refusal (List Node) := records.mapM Record.node

def ask {α : Type} (answer : Except Refusal α) : Except TreeError α :=
  answer.mapError (.backend .read)

/-! ### What a record is picked by -/

def hasId (id : Int) (r : Record) : Bool := r.id.equals (.integer id)

def beginsAt (marker : Int) (r : Record) : Bool := r.left.equals (.integer marker)

def endsAt (marker : Int) (r : Record) : Bool := r.right.equals (.integer marker)

def hasParent (parent : Option Int) (r : Record) : Bool :=
  r.parent.is ((parent.map Value.integer).getD .null)

def isFirstChild (n : Node) : Record → Bool := beginsAt (n.left + 1)

def isNext (n : Node) (r : Record) : Bool := beginsAt (n.right + 1) r && hasParent n.parent r

def isPrevious (n : Node) (r : Record) : Bool := endsAt (n.left - 1) r && hasParent n.parent r

/-- To touch a node from outside, as a sibling does. -/
def touchesAsSibling (n : Node) : Side → Record → Bool
  | .left => endsAt (n.left - 1)
  | .right => beginsAt (n.right + 1)

/-- To touch a node from around it, as its parent does. -/
def touchesAsParent (n : Node) : Side → Record → Bool
  | .left => beginsAt (n.left - 1)
  | .right => endsAt (n.right + 1)

/-! ### The readers -/

def byLeft (records : List Record) : List Record :=
  records.mergeSort fun a b => a.left.value.le b.left.value

def nodes (records : List Record) : Except TreeError (List Node) := ask (all (byLeft records))

def element? (records : List Record) (id : Int) : Except Refusal (Option Node) :=
  first records (hasId id)

def element (records : List Record) (id : Int) : Except TreeError Node := do
  match ← ask (element? records id) with
  | some n => return n
  | none => throw (.notFound id)

def root (records : List Record) : Except TreeError Node := do
  match ← ask (first records (beginsAt 1)) with
  | some n => return n
  | none => throw .emptyTree

def firstChild (records : List Record) (id : Int) : Except TreeError (Option Node) := do
  let n ← element records id
  ask (first records (isFirstChild n))

def parent (records : List Record) (id : Int) : Except TreeError (Option Node) := do
  let n ← element records id
  match n.parent with
  | some parent => ask (element? records parent)
  | none => return none

def path (records : List Record) (id : Int) : Except TreeError (List Node) := do
  let n ← element records id
  nodes (records.filter fun r => r.left.atMost n.left && r.right.atLeast n.right)

def subtree (records : List Record) (id : Int) : Except TreeError (List Node) := do
  let n ← element records id
  nodes (records.filter fun r => r.left.atLeast n.left && r.left.atMost n.right)

def nextSibling (records : List Record) (id : Int) : Except TreeError (Option Node) := do
  let n ← element records id
  ask (first records (isNext n))

def previousSibling (records : List Record) (id : Int) : Except TreeError (Option Node) := do
  let n ← element records id
  ask (first records (isPrevious n))

/-- The node that touches another on one side: a sibling, or else the parent. -/
def toucher? (records : List Record) (n : Node) (side : Side) :
    Except Refusal (Option Neighbor) := do
  match ← first records (touchesAsSibling n side) with
  | some m => return some (.sibling m)
  | none => return (← first records (touchesAsParent n side)).map .parent

/-- The node whose marker touches the node's boundary on one side. -/
def neighbor (records : List Record) (id : Int) (side : Side) :
    Except TreeError (Option Neighbor) := do
  let n ← element records id
  ask (toucher? records n side)

def isChildOf (records : List Record) (id child : Int) : Except TreeError Bool := do
  let outer ← element records id
  let inner ← element records child
  return outer.bounds.contains inner.bounds

def hasChildren (records : List Record) (id : Int) : Except TreeError Bool := do
  let n ← element records id
  return !n.bounds.isLeaf

/-- The order of one generation: by the order key as its column compares it, then by left
marker. -/
def listedBefore (order : OrderKey) (collation : Collation) (a b : Record) : Bool :=
  let x := collation.image (a.orderValue order)
  let y := collation.image (b.orderValue order)
  if x.same y then a.left.value.le b.left.value else x.le y

def generation (order : OrderKey) (collation : Collation) (records : List Record)
    (ids : List Int) : List Record :=
  (records.filter fun r => ids.any fun id => r.parent.equals (.integer id)).mergeSort
    (listedBefore order collation)

/-- The answers to one query after another, each for the next generation below `ids`. None is
made after an empty answer. -/
def generations (order : OrderKey) (collation : Collation) (records : List Record) :
    Nat → List Int → Except Refusal (List (List Node))
  | 0, _ => .ok []
  | _, [] => .ok []
  | levels + 1, ids => do
    let level ← all (generation order collation records ids)
    return level :: (← generations order collation records levels (level.map (·.id)))

def children (order : OrderKey) (collation : Collation) (records : List Record) (levels : Nat)
    (ids : List Int) : Except TreeError (List Node) :=
  ask (List.flatten <$> generations order collation records levels ids)

def check (records : List Record) : Except TreeError (List Violation) := do
  return violations ((← nodes records).map (·.shape))

end Reading

end NestedSet
