/-!
# Declared mappings

A mapping says which table holds a tree, how the columns are called, which
payload fields a node carries, how siblings are listed, which partition of the
table the tree is, and where new ids come from. Nothing in it is checked yet.
-/

set_option autoImplicit false

namespace NestedSet

inductive PartitionKey where
  | integer (n : Int)
  | text (s : String)
  deriving DecidableEq, Repr

inductive IdSource (α : Type) where
  | autoIncrement
  | sequence (table : α)
  deriving DecidableEq, Repr

structure ColumnNames where
  id : String := "id"
  left : String := "l"
  right : String := "r"
  parent : String := "parent"
  deriving DecidableEq, Repr

/-- A payload field; without a column name the column is called as the field. -/
structure FieldSpec where
  name : String
  column : Option String := none
  sqlType : Option String := none
  deriving DecidableEq, Repr

namespace FieldSpec

def columnName (f : FieldSpec) : String := f.column.getD f.name

def typed (name sqlType : String) : FieldSpec := ⟨name, some name, some sqlType⟩

def mapped (name column sqlType : String) : FieldSpec := ⟨name, some column, some sqlType⟩

end FieldSpec

structure PartitionSpec where
  column : String
  key : PartitionKey
  deriving DecidableEq, Repr

structure Mapping where
  table : String
  columns : ColumnNames := {}
  fields : List FieldSpec := []
  orderBy : Option String := none
  partition : Option PartitionSpec := none
  ids : IdSource String := .autoIncrement
  deriving DecidableEq, Repr

structure Config where
  mapping : Mapping
  busyTimeoutMs : Nat := 5000
  deriving DecidableEq, Repr

end NestedSet
