import NestedSet.Schema

/-!
# The objects a schema declares

A schema declares the tree table, an index over each of the left, right and
parent columns, and the table of its sequence. An object is kept with the text
that declares it. Markers are not unique in the table, for a shift passes
through collisions that it removes.
-/

set_option autoImplicit false

namespace NestedSet

namespace Schema

def idDeclaration (s : Schema) : String :=
  match s.ids with
  | .autoIncrement => "INTEGER PRIMARY KEY AUTOINCREMENT"
  | .sequence _ => "INTEGER PRIMARY KEY"

def partitionDeclaration : PartitionKey → String
  | .integer _ => "INTEGER NOT NULL"
  | .text _ => "TEXT NOT NULL"

def fieldDeclaration (f : Field) : String :=
  match f.sqlType with
  | some type => f.column.quoted ++ " " ++ type
  | none => f.column.quoted

def columnDeclarations (s : Schema) : List String :=
  [s.id.quoted ++ " " ++ s.idDeclaration,
    s.left.quoted ++ " INTEGER NOT NULL",
    s.right.quoted ++ " INTEGER NOT NULL",
    s.parent.quoted ++ " INTEGER"] ++
  (s.partition.map fun p => p.column.quoted ++ " " ++ partitionDeclaration p.key).toList ++
  s.fields.map fieldDeclaration

def body (elements : List String) : String := "\n  " ++ ",\n  ".intercalate elements ++ "\n"

def tableDefinition (s : Schema) : String :=
  "CREATE TABLE " ++ s.table.quoted ++ " (" ++ body s.columnDeclarations ++ ")"

def indexName (s : Schema) (side : String) : String := s.table.name ++ "_" ++ side ++ "_idx"

def indexDefinition (s : Schema) (side : String) (column : Identifier) : String :=
  let scope := (s.partition.map fun p => p.column.quoted ++ ", ").getD ""
  "CREATE INDEX \"" ++ s.indexName side ++ "\" ON " ++ s.table.quoted ++
    "(" ++ scope ++ column.quoted ++ ")"

def indexes (s : Schema) : List (String × String) :=
  [("left", s.left), ("right", s.right), ("parent", s.parent)].map fun (side, column) =>
    (s.indexName side, s.indexDefinition side column)

def sequenceDefinition (table : Identifier) : String :=
  "CREATE TABLE " ++ table.quoted ++ " (" ++
    body ["name TEXT PRIMARY KEY", "value INTEGER NOT NULL"] ++ ")"

def objectNames (s : Schema) : List String :=
  s.table.name :: s.indexes.map (·.1) ++
    (match s.ids with
      | .autoIncrement => []
      | .sequence t => [t.name])

end Schema

end NestedSet
