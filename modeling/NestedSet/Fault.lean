import NestedSet.Schema

/-!
# Induced failures

A fault makes every statement of one kind fail, for trying out what a failure
at any point leaves behind. It guards a table of a schema and watches the
columns as that schema names them. It fires for a row that the statement is
about to write, so a statement that touches no row passes.
-/

set_option autoImplicit false

namespace NestedSet

inductive FaultKind where
  | insert
  | delete
  | leftUp
  | leftDown
  | rightUp
  | rightDown
  /-- Any assignment of a parent, or only that to one node. -/
  | reparent (only : Option Int)
  /-- Any assignment of a payload field. -/
  | payload (field : String)
  | sequence
  deriving DecidableEq, Repr

namespace FaultKind

def name : FaultKind → String
  | .insert => "insert"
  | .delete => "delete"
  | .leftUp => "left_up"
  | .leftDown => "left_down"
  | .rightUp => "right_up"
  | .rightDown => "right_down"
  | .reparent _ => "reparent"
  | .payload _ => "payload"
  | .sequence => "sequence"

/-- Whether any inserted row is watched; every new value of a counter is inserted first. -/
def isOnInsert (kind : FaultKind) : Bool := kind == .insert || kind == .sequence

end FaultKind

structure Fault where
  kind : FaultKind
  schema : Schema
  /-- Whether the failure also ends the transaction, undoing all of it at once. -/
  endsTransaction : Bool := false
  deriving DecidableEq, Repr

namespace Fault

def table? (f : Fault) : Option Identifier :=
  match f.kind, f.schema.ids with
  | .sequence, .sequence name => some name
  | .sequence, .autoIncrement => none
  | _, _ => some f.schema.table

def guards (f : Fault) (key : String) : Bool := f.table?.any (·.key == key)

def watched? (f : Fault) : Option Identifier :=
  match f.kind with
  | .leftUp | .leftDown => some f.schema.left
  | .rightUp | .rightDown => some f.schema.right
  | .reparent _ => some f.schema.parent
  | .payload name => (f.schema.field? name).map (·.column)
  | _ => none

end Fault

end NestedSet
