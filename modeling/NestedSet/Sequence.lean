import NestedSet.Table.Change

/-!
# Sequences

A sequence is a table of counters with a name each. A counter is set by
inserting it, and by overwriting it where the name is found to be taken.
-/

set_option autoImplicit false

namespace NestedSet.Sequence

def nameColumn : Identifier := ⟨"name"⟩

def valueColumn : Identifier := ⟨"value"⟩

def isCounter (t : Table) (name : String) (r : Row) : Bool :=
  (t.cell nameColumn r).equals (.text name)

def value? (t : Table) (name : String) : Except Refusal (Option Int) :=
  match t.stranger? [valueColumn, nameColumn] with
  | some column => .error (.unknownColumn column.name)
  | none =>
    match t.rows.find? (isCounter t name) with
    | none => .ok none
    | some r => some <$> (t.cell valueColumn r).integer 0

def hasUniqueNames (t : Table) : Bool :=
  t.isId nameColumn || (t.column? nameColumn.key).any (·.unique)

def set (t : Table) (faults : List Fault) (name : String) (value : Int) :
    Except Refusal (Unit × Table) :=
  if hasUniqueNames t then
    match t.insert faults [(nameColumn, .text name), (valueColumn, .integer value)] with
    | .ok (_, t) => .ok ((), t)
    | .error (.notUnique _ _) => do
      let (_, t) ← t.update faults ⟨isCounter t name, [(valueColumn, fun _ => .integer value)]⟩
      return ((), t)
    | .error refusal => .error refusal
  else .error .namesNotUnique

def counters (t : Table) : List (String × Int) :=
  t.rows.filterMap fun r =>
    match (t.cell nameColumn r).value, (t.cell valueColumn r).value with
    | .text name, .integer value => some (name, value)
    | _, _ => none

end NestedSet.Sequence
