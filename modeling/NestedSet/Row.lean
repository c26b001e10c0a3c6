import NestedSet.Entries
import NestedSet.Identifier
import NestedSet.Value

/-!
# Rows and their revision

A row is what a table keeps under one id: the values of all other columns, by
column. A revision is one statement over many rows: which of them it selects
and what it assigns to their columns.
-/

set_option autoImplicit false

namespace NestedSet

structure Row where
  id : Int
  /-- The values, each under the key of its column. -/
  cells : Entries Value := []
  deriving DecidableEq, Repr

namespace Row

def get (r : Row) (key : String) : Value := (r.cells.lookup key).getD .null

def put (key : String) (v : Value) (r : Row) : Row := { r with cells := r.cells.put key v }

theorem id_put (key : String) (v : Value) (r : Row) : (r.put key v).id = r.id := rfl

theorem get_put_self (key : String) (v : Value) (r : Row) : (r.put key v).get key = v := by
  simp [get, put, Entries.lookup_put_self]

theorem get_put_of_ne {key other : String} (h : other ≠ key) (v : Value) (r : Row) :
    (r.put key v).get other = r.get other := by
  simp [get, put, Entries.lookup_put_of_ne h]

end Row

/-- A statement that assigns columns of the rows it selects, where the rows are seen as values
of a type `α`. All assigned values are found in the row as it was before. -/
structure Revision (α : Type) where
  selects : α → Bool
  sets : List (Identifier × (α → Value))

namespace Revision

variable {α β : Type}

def columns (u : Revision α) : List Identifier := u.sets.map (·.1)

/-- The same statement for rows of which `view` shows those in scope. -/
def through (scope : β → Bool) (view : β → α) (u : Revision α) : Revision β where
  selects r := scope r && u.selects (view r)
  sets := u.sets.map fun (column, value) => (column, fun r => value (view r))

theorem columns_through (scope : β → Bool) (view : β → α) (u : Revision α) :
    (u.through scope view).columns = u.columns := by
  simp [columns, through, Function.comp_def]

end Revision

end NestedSet
