import NestedSet.Document
import NestedSet.Mapping

/-!
# Decoding configurations

A record is written as an object with its keys in any order, or as an array of
its fields in declaration order. Decoding goes through the document in the
order in which it is written and reports the first problem met; a key that is
missing shows only at the end of its object.
-/

set_option autoImplicit false

namespace NestedSet.Decode

inductive Record where
  | config
  | mapping
  | columns
  | field
  | partition
  deriving DecidableEq, Repr

namespace Record

def name : Record → String
  | .config => "TreeConfig"
  | .mapping => "TreeSchema"
  | .columns => "ColumnNames"
  | .field => "PayloadField"
  | .partition => "Partition"

def keys : Record → List String
  | .config => ["schema", "busy_timeout_ms"]
  | .mapping => ["table", "columns", "payload", "order_by", "partition", "ids"]
  | .columns => ["id", "left", "right", "parent_id"]
  | .field => ["name", "column", "sql_type"]
  | .partition => ["column", "value"]

end Record

inductive Expectation where
  | string
  | sequence
  | unsigned
  | record (r : Record)
  | idSource
  | idKind
  deriving DecidableEq, Repr

def Expectation.text : Expectation → String
  | .string => "a string"
  | .sequence => "a sequence"
  | .unsigned => "u64"
  | .record r => "struct " ++ r.name
  | .idSource => "internally tagged enum IdStrategy"
  | .idKind => "variant identifier"

/-- What an array is too short or too long for. -/
inductive Capacity where
  | record (r : Record)
  | sequenceTable
  | elements (count : Nat)
  deriving DecidableEq, Repr

def elementsText (n : Nat) : String := if n = 1 then "1 element" else s!"{n} elements"

def Capacity.text : Capacity → String
  | .record r => "struct " ++ r.name ++ " with " ++ elementsText r.keys.length
  | .sequenceTable => "struct variant IdStrategy::Sequence with " ++ elementsText 1
  | .elements n => elementsText n ++ " in sequence"

inductive Problem where
  | unknownKey (key : String) (known : List String)
  | repeatedKey (key : String)
  | missingKey (key : String)
  | wrongType (found : Document) (expected : Expectation)
  | negative (n : Int)
  | wrongLength (length : Nat) (expected : Capacity)
  | unknownKind (kind : String)
  | noPartitionKey
  | surplus

def ticked (s : String) : String := "`" ++ s ++ "`"

def choiceText : List String → String
  | [a] => ticked a
  | [a, b] => ticked a ++ " or " ++ ticked b
  | names => "one of " ++ ", ".intercalate (names.map ticked)

def idKinds : List String := ["auto_increment", "sequence"]

def Problem.message : Problem → String
  | .unknownKey key known => "unknown field " ++ ticked key ++ ", expected " ++ choiceText known
  | .repeatedKey key => "duplicate field " ++ ticked key
  | .missingKey key => "missing field " ++ ticked key
  | .wrongType found expected => "invalid type: " ++ found.found ++ ", expected " ++ expected.text
  | .negative n => s!"invalid value: integer {ticked (toString n)}, expected u64"
  | .wrongLength length expected => s!"invalid length {length}, expected {expected.text}"
  | .unknownKind kind => "unknown variant " ++ ticked kind ++ ", expected " ++ choiceText idKinds
  | .noPartitionKey => "data did not match any variant of untagged enum PartitionKey"
  | .surplus => "trailing characters"

abbrev Decoded := Except Problem

def string : Document → Decoded String
  | .string s => .ok s
  | j => .error (.wrongType j .string)

def unsigned : Document → Decoded Nat
  | .integer (.ofNat n) => .ok n
  | .integer n => .error (.negative n)
  | j => .error (.wrongType j .unsigned)

def orNull {α : Type} (decode : Document → Decoded α) : Document → Decoded (Option α)
  | .null => .ok none
  | j => some <$> decode j

def listOf {α : Type} (decode : Document → Decoded α) : Document → Decoded (List α)
  | .array items => items.mapM decode
  | j => .error (.wrongType j .sequence)

def fill {α : Type} (key : String) (slot : Option α) (decode : Document → Decoded α)
    (value : Document) : Decoded (Option α) :=
  match slot with
  | some _ => .error (.repeatedKey key)
  | none => some <$> decode value

def required {α : Type} (absent : String → Problem) (key : String) : Option α → Decoded α
  | some a => .ok a
  | none => .error (absent key)

def record {σ α : Type} (r : Record) (empty : σ) (put : σ → String → Document → Decoded σ)
    (finish : (String → Problem) → σ → Decoded α) : Document → Decoded α
  | .object members => do
    let slots ← members.foldlM (fun s (key, value) => put s key value) empty
    finish .missingKey slots
  | .array items => do
    let slots ← (r.keys.zip items).foldlM (fun s (key, value) => put s key value) empty
    let a ← finish (fun _ => .wrongLength items.length (.record r)) slots
    if r.keys.length < items.length then throw .surplus
    return a
  | j => .error (.wrongType j (.record r))

structure ColumnSlots where
  id : Option String := none
  left : Option String := none
  right : Option String := none
  parent : Option String := none

def ColumnSlots.put (s : ColumnSlots) (key : String) (value : Document) : Decoded ColumnSlots :=
  match key with
  | "id" => do return { s with id := ← fill key s.id string value }
  | "left" => do return { s with left := ← fill key s.left string value }
  | "right" => do return { s with right := ← fill key s.right string value }
  | "parent_id" => do return { s with parent := ← fill key s.parent string value }
  | _ => .error (.unknownKey key Record.columns.keys)

def ColumnSlots.finish (_ : String → Problem) (s : ColumnSlots) : Decoded ColumnNames :=
  let names : ColumnNames := {}
  .ok ⟨s.id.getD names.id, s.left.getD names.left, s.right.getD names.right,
    s.parent.getD names.parent⟩

def columns : Document → Decoded ColumnNames :=
  record .columns {} ColumnSlots.put ColumnSlots.finish

structure FieldSlots where
  name : Option String := none
  column : Option (Option String) := none
  sqlType : Option (Option String) := none

def FieldSlots.put (s : FieldSlots) (key : String) (value : Document) : Decoded FieldSlots :=
  match key with
  | "name" => do return { s with name := ← fill key s.name string value }
  | "column" => do return { s with column := ← fill key s.column (orNull string) value }
  | "sql_type" => do return { s with sqlType := ← fill key s.sqlType (orNull string) value }
  | _ => .error (.unknownKey key Record.field.keys)

def FieldSlots.finish (absent : String → Problem) (s : FieldSlots) : Decoded FieldSpec := do
  return ⟨← required absent "name" s.name, s.column.getD none, s.sqlType.getD none⟩

def field : Document → Decoded FieldSpec := record .field {} FieldSlots.put FieldSlots.finish

def partitionKey : Document → Decoded PartitionKey
  | .integer n => if n < Nat.pow 2 63 then .ok (.integer n) else .error .noPartitionKey
  | .string s => .ok (.text s)
  | _ => .error .noPartitionKey

structure PartitionSlots where
  column : Option String := none
  value : Option PartitionKey := none

def PartitionSlots.put (s : PartitionSlots) (key : String) (value : Document) :
    Decoded PartitionSlots :=
  match key with
  | "column" => do return { s with column := ← fill key s.column string value }
  | "value" => do return { s with value := ← fill key s.value partitionKey value }
  | _ => .error (.unknownKey key Record.partition.keys)

def PartitionSlots.finish (absent : String → Problem) (s : PartitionSlots) :
    Decoded PartitionSpec := do
  return ⟨← required absent "column" s.column, ← required absent "value" s.value⟩

def partition : Document → Decoded PartitionSpec :=
  record .partition {} PartitionSlots.put PartitionSlots.finish

def idKind : Document → Decoded (IdSource Unit)
  | .string "auto_increment" => .ok .autoIncrement
  | .string "sequence" => .ok (.sequence ())
  | .string kind => .error (.unknownKind kind)
  | j => .error (.wrongType j .idKind)

/-- Finds the kind among the members; the others are kept for later. -/
def splitKind : Option (IdSource Unit) → List (String × Document) →
    Decoded (Option (IdSource Unit) × List (String × Document))
  | kind, [] => .ok (kind, [])
  | kind, (key, value) :: rest => do
    if key = "kind" then
      splitKind (← fill key kind idKind value) rest
    else
      let (kind, others) ← splitKind kind rest
      return (kind, (key, value) :: others)

/-- The sequence table among the members beside the kind; unknown keys there count for nothing. -/
def sequenceTable : Option String → List (String × Document) → Decoded String
  | table, [] => required .missingKey "table" table
  | table, (key, value) :: rest => do
    if key = "table" then sequenceTable (← fill key table string value) rest
    else sequenceTable table rest

def idSourceOfItems : IdSource Unit → List Document → Decoded (IdSource String)
  | .autoIncrement, [] => .ok .autoIncrement
  | .autoIncrement, items => .error (.wrongLength items.length (.elements 0))
  | .sequence _, [] => .error (.wrongLength 0 .sequenceTable)
  | .sequence _, table :: rest => do
    let table ← string table
    if !rest.isEmpty then throw (.wrongLength (rest.length + 1) (.elements 1))
    return .sequence table

def idSource : Document → Decoded (IdSource String)
  | .object members => do
    let (kind, others) ← splitKind none members
    match ← required .missingKey "kind" kind with
    | .autoIncrement => return .autoIncrement
    | .sequence _ => return .sequence (← sequenceTable none others)
  | .array [] => .error (.missingKey "kind")
  | .array (kind :: rest) => do idSourceOfItems (← idKind kind) rest
  | j => .error (.wrongType j .idSource)

structure MappingSlots where
  table : Option String := none
  columns : Option ColumnNames := none
  fields : Option (List FieldSpec) := none
  orderBy : Option (Option String) := none
  partition : Option (Option PartitionSpec) := none
  ids : Option (IdSource String) := none

def MappingSlots.put (s : MappingSlots) (key : String) (value : Document) : Decoded MappingSlots :=
  match key with
  | "table" => do return { s with table := ← fill key s.table string value }
  | "columns" => do return { s with columns := ← fill key s.columns Decode.columns value }
  | "payload" => do return { s with fields := ← fill key s.fields (listOf field) value }
  | "order_by" => do return { s with orderBy := ← fill key s.orderBy (orNull string) value }
  | "partition" => do
    return { s with partition := ← fill key s.partition (orNull Decode.partition) value }
  | "ids" => do return { s with ids := ← fill key s.ids idSource value }
  | _ => .error (.unknownKey key Record.mapping.keys)

def MappingSlots.finish (absent : String → Problem) (s : MappingSlots) : Decoded Mapping := do
  let table ← required absent "table" s.table
  return ⟨table, s.columns.getD {}, s.fields.getD [], s.orderBy.getD none, s.partition.getD none,
    s.ids.getD .autoIncrement⟩

def mapping : Document → Decoded Mapping :=
  record .mapping {} MappingSlots.put MappingSlots.finish

structure ConfigSlots where
  mapping : Option Mapping := none
  busyTimeoutMs : Option Nat := none

def ConfigSlots.put (s : ConfigSlots) (key : String) (value : Document) : Decoded ConfigSlots :=
  match key with
  | "schema" => do return { s with mapping := ← fill key s.mapping Decode.mapping value }
  | "busy_timeout_ms" => do
    return { s with busyTimeoutMs := ← fill key s.busyTimeoutMs unsigned value }
  | _ => .error (.unknownKey key Record.config.keys)

def ConfigSlots.finish (absent : String → Problem) (s : ConfigSlots) : Decoded Config := do
  let mapping ← required absent "schema" s.mapping
  let plain : Config := { mapping := mapping }
  return { plain with busyTimeoutMs := s.busyTimeoutMs.getD plain.busyTimeoutMs }

def config : Document → Decoded Config := record .config {} ConfigSlots.put ConfigSlots.finish

end NestedSet.Decode
