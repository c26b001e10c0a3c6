import NestedSet.Node
import NestedSet.Table

/-!
# Records

A record is a row of a table as a schema sees it: the cells that the schema
calls id, left, right and parent, and the payload by field names. It is a node
if the first three hold integers and the fourth an integer or nothing. A
schema that shares its table with others sees only the rows of its partition.
-/

set_option autoImplicit false

namespace NestedSet

structure Record where
  id : Cell
  left : Cell
  right : Cell
  parent : Cell
  payload : Payload
  deriving DecidableEq, Repr

namespace Record

/-- The node that a record is; the first cell that is in the way is reported. -/
def node (r : Record) : Except Refusal Node := do
  let id ← r.id.integer 0
  let left ← r.left.integer 1
  let right ← r.right.integer 2
  let parent ← r.parent.integer? 3
  return ⟨id, left, right, parent, r.payload⟩

theorem node_eq_ok_iff {r : Record} {n : Node} :
    r.node = .ok n ↔ r.id.value = .integer n.id ∧ r.left.value = .integer n.left ∧
      r.right.value = .integer n.right ∧
      r.parent.value = (n.parent.map Value.integer).getD .null ∧ r.payload = n.payload := by
  rw [← Cell.integer_eq_ok_iff r.id 0, ← Cell.integer_eq_ok_iff r.left 1,
    ← Cell.integer_eq_ok_iff r.right 2, ← Cell.integer?_eq_ok_iff r.parent 3]
  unfold node
  cases r.id.integer 0 <;> cases r.left.integer 1 <;> cases r.right.integer 2 <;>
    cases r.parent.integer? 3 <;> cases n <;> simp [bind, Except.bind, pure, Except.pure]

end Record

namespace Schema

def record (s : Schema) (t : Table) (r : Row) : Record where
  id := t.cell s.id r
  left := t.cell s.left r
  right := t.cell s.right r
  parent := t.cell s.parent r
  payload := s.fields.map fun f => (f.name, (t.cell f.column r).value)

def inScope (s : Schema) (t : Table) (r : Row) : Bool :=
  s.partition.all fun p => (t.cell p.column r).equals p.key.value

def recordsOf (s : Schema) (t : Table) : List Record :=
  (t.rows.filter (s.inScope t)).map (s.record t)

end Schema

namespace Revision

def reparent (s : Schema) (id parent : Int) : Revision Record where
  selects r := r.id.equals (.integer id)
  sets := [(s.parent, fun _ => .integer parent)]

def payload (id : Int) (values : List (Field × Value)) : Revision Record where
  selects r := r.id.equals (.integer id)
  sets := values.map fun (f, v) => (f.column, fun _ => v)

end Revision

end NestedSet
