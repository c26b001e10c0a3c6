import NestedSet.Fault
import NestedSet.Value

/-!
# Why the database refuses a statement

A refused statement has no effect of its own. Most refusals leave an open
transaction open; only a fault or an interruption may end it.
-/

set_option autoImplicit false

namespace NestedSet

inductive Refusal where
  | missingTable (table : String)
  /-- An inserted row is given a value for a column that is not there. -/
  | missingColumn (table column : String)
  /-- A column is assigned that is not there. -/
  | unknownColumn (column : String)
  | notNull (table column : String)
  | notUnique (table column : String)
  /-- A row was to have something else than an integer as its id. -/
  | idMismatch
  /-- The column at a place of the answer holds a value of the wrong kind. -/
  | wrongKind (found : Value) (place : Nat) (column : String)
  /-- Counters can not be told apart by their names. -/
  | namesNotUnique
  /-- There is no id, or no room, for another row. -/
  | outOfIds
  | induced (kind : FaultKind) (endsTransaction : Bool)
  /-- Stopped from outside while it ran. -/
  | interrupted (endsTransaction : Bool)
  | locked
  | nothingToCommit
  | nothingToRollBack
  | duplicateColumn (name : String)
  | reservedName (name : String)
  | nameOfIndex (name : String)
  | nameOfTable (name : String)
  deriving DecidableEq, Repr

def Fault.refusal (f : Fault) : Refusal := .induced f.kind f.endsTransaction

namespace Refusal

def message : Refusal → String
  | .missingTable table => s!"no such table: {table}"
  | .missingColumn table column => s!"table {table} has no column named {column}"
  | .unknownColumn column => s!"no such column: {column}"
  | .notNull table column => s!"NOT NULL constraint failed: {table}.{column}"
  | .notUnique table column => s!"UNIQUE constraint failed: {table}.{column}"
  | .idMismatch => "datatype mismatch"
  | .wrongKind found place column =>
    s!"Invalid column type {found.kindName} at index: {place}, name: {column}"
  | .namesNotUnique =>
    "ON CONFLICT clause does not match any PRIMARY KEY or UNIQUE constraint"
  | .outOfIds => "database or disk is full"
  | .induced kind _ => s!"induced {kind.name} failure"
  | .interrupted _ => "interrupted"
  | .locked => "database is locked"
  | .nothingToCommit => "cannot commit - no transaction is active"
  | .nothingToRollBack => "cannot rollback - no transaction is active"
  | .duplicateColumn name => s!"duplicate column name: {name}"
  | .reservedName name => s!"object name reserved for internal use: {name}"
  | .nameOfIndex name => s!"there is already an index named {name}"
  | .nameOfTable name => s!"there is already a table named {name}"

/-- Whether the statement could not be made out, which is found before any lock is asked for. -/
def precedesLock : Refusal → Bool
  | .missingTable _ => true
  | .missingColumn _ _ => true
  | .unknownColumn _ => true
  | .namesNotUnique => true
  | _ => false

def endsTransaction : Refusal → Bool
  | .induced _ b => b
  | .interrupted b => b
  | _ => false

end Refusal

end NestedSet
