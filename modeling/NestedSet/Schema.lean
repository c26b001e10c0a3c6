import NestedSet.Identifier
import NestedSet.Mapping

/-!
# Checked schemas

A schema is a mapping all of whose names are identifiers, no two of whose
columns are one, and whose order names a field. The check reports the first
thing wrong, structural columns before the partition before the payload.
-/

set_option autoImplicit false

namespace NestedSet

inductive NameRole where
  | table
  | idColumn
  | leftColumn
  | rightColumn
  | parentColumn
  | partitionColumn
  | payloadColumn
  | sequenceTable
  deriving DecidableEq, Repr

def NameRole.text : NameRole → String
  | .table => "table"
  | .idColumn => "columns.id"
  | .leftColumn => "columns.left"
  | .rightColumn => "columns.right"
  | .parentColumn => "columns.parent_id"
  | .partitionColumn => "partition.column"
  | .payloadColumn => "payload.column"
  | .sequenceTable => "ids.table"

inductive SchemaError where
  | invalidIdentifier (role : NameRole) (error : IdentifierError)
  | invalidSqlType (declaration : String)
  | duplicateColumn (column : String)
  | duplicateField (name : String)
  | duplicateTable (name : String)
  | reservedField (name : String)
  | unknownOrderField (name : String)
  deriving DecidableEq, Repr

def SchemaError.message : SchemaError → String
  | .invalidIdentifier role error => role.text ++ ": " ++ error.message
  | .invalidSqlType declaration => "invalid sql type: " ++ Text.quotedString declaration
  | .duplicateColumn column => s!"column {column} is mapped twice"
  | .duplicateField name => s!"payload field {name} is declared twice"
  | .duplicateTable name => s!"sequence table {name} must differ from the tree table"
  | .reservedField name => s!"payload field {name} shadows a structural field"
  | .unknownOrderField name => s!"order_by names unknown field {name}"

structure Field where
  name : String
  column : Identifier
  sqlType : Option String
  deriving DecidableEq, Repr

structure Partition where
  column : Identifier
  key : PartitionKey
  deriving DecidableEq, Repr

/-- What the nodes of one generation are listed by, before their left marker. -/
inductive OrderKey where
  | left
  | right
  | id
  | parent
  | field (f : Field)
  deriving DecidableEq, Repr

structure Schema where
  table : Identifier
  id : Identifier
  left : Identifier
  right : Identifier
  parent : Identifier
  partition : Option Partition
  fields : List Field
  order : OrderKey
  ids : IdSource Identifier
  deriving DecidableEq, Repr

/-- The names of the fields every node has; no payload field may take one. -/
def structuralFields : List String := ["id", "left", "right", "parent_id"]

namespace Schema

def structuralColumns (s : Schema) : List Identifier := [s.id, s.left, s.right, s.parent]

def selected (s : Schema) : List Identifier := s.structuralColumns ++ s.fields.map (·.column)

def columns (s : Schema) : List Identifier :=
  s.structuralColumns ++ (s.partition.map (·.column)).toList ++ s.fields.map (·.column)

def field? (s : Schema) (name : String) : Option Field := s.fields.find? (·.name == name)

def orderColumn (s : Schema) : Identifier :=
  match s.order with
  | .left => s.left
  | .right => s.right
  | .id => s.id
  | .parent => s.parent
  | .field f => f.column

end Schema

namespace Mapping

abbrev Checked := Except SchemaError

def identifier (role : NameRole) (name : String) : Checked Identifier :=
  match Identifier.ofString name with
  | .ok i => .ok i
  | .error e => .error (.invalidIdentifier role e)

def claim (taken : List String) (column : Identifier) : Checked (List String) :=
  if column.key ∈ taken then .error (.duplicateColumn column.name) else .ok (column.key :: taken)

def claimAll (taken : List String) : List Identifier → Checked (List String)
  | [] => .ok taken
  | c :: rest => do claimAll (← claim taken c) rest

def isTypeChar (c : Char) : Bool :=
  Identifier.isPart c || c == ' ' || c == '(' || c == ')' || c == ','

def sqlType (declaration : String) : Checked String :=
  let trimmed := Text.trim declaration
  if trimmed.isEmpty || !trimmed.toList.all isTypeChar then .error (.invalidSqlType declaration)
  else .ok trimmed

def sqlType? : Option String → Checked (Option String)
  | none => .ok none
  | some declaration => some <$> sqlType declaration

def partition? (taken : List String) :
    Option PartitionSpec → Checked (Option Partition × List String)
  | none => .ok (none, taken)
  | some p => do
    let column ← identifier .partitionColumn p.column
    let taken ← claim taken column
    return (some ⟨column, p.key⟩, taken)

def payload (names taken : List String) : List FieldSpec → Checked (List Field)
  | [] => .ok []
  | f :: rest => do
    if f.name ∈ structuralFields then throw (.reservedField f.name)
    if f.name ∈ names then throw (.duplicateField f.name)
    let column ← identifier .payloadColumn f.columnName
    let taken ← claim taken column
    let type ← sqlType? f.sqlType
    let fields ← payload (f.name :: names) taken rest
    return ⟨f.name, column, type⟩ :: fields

def order (fields : List Field) : Option String → Checked OrderKey
  | none => .ok .left
  | some name =>
    if name = "left" then .ok .left
    else if name = "right" then .ok .right
    else if name = "id" then .ok .id
    else if name = "parent_id" then .ok .parent
    else
      match fields.find? (·.name == name) with
      | some f => .ok (.field f)
      | none => .error (.unknownOrderField name)

def idSource (table : Identifier) : IdSource String → Checked (IdSource Identifier)
  | .autoIncrement => .ok .autoIncrement
  | .sequence name => do
    let sequence ← identifier .sequenceTable name
    if sequence.key = table.key then throw (.duplicateTable sequence.name)
    return .sequence sequence

def validate (m : Mapping) : Checked Schema := do
  let table ← identifier .table m.table
  let id ← identifier .idColumn m.columns.id
  let left ← identifier .leftColumn m.columns.left
  let right ← identifier .rightColumn m.columns.right
  let parent ← identifier .parentColumn m.columns.parent
  let taken ← claimAll [] [id, left, right, parent]
  let (partition, taken) ← partition? taken m.partition
  let fields ← payload [] taken m.fields
  let order ← order fields m.orderBy
  let ids ← idSource table m.ids
  return ⟨table, id, left, right, parent, partition, fields, order, ids⟩

end Mapping

end NestedSet
