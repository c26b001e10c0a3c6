import NestedSet.Schema

/-!
# The printed form of a schema

One line that shows every checked name in its quoted form, for logs and for
comparing what two mappings come to.
-/

set_option autoImplicit false

namespace NestedSet.Schema

open NestedSet.Text

def optionText : Option String → String
  | none => "None"
  | some s => "Some(" ++ s ++ ")"

def keyText : PartitionKey → String
  | .integer n => s!"Integer({n})"
  | .text s => "Text(" ++ quotedString s ++ ")"

def recordText (name : String) (parts : List (String × String)) : String :=
  let labelled := parts.map fun (label, text) => label ++ ": " ++ text
  name ++ " \x7b " ++ ", ".intercalate labelled ++ " \x7d"

def nameText (i : Identifier) : String := quotedString i.quoted

def fieldText (f : Field) : String :=
  recordText "ResolvedField" [
    ("name", quotedString f.name),
    ("column", nameText f.column),
    ("sql_type", optionText (f.sqlType.map quotedString))]

def partitionText (p : Partition) : String :=
  recordText "ResolvedPartition" [("column", nameText p.column), ("value", keyText p.key)]

def idsText : IdSource Identifier → String
  | .autoIncrement => "AutoIncrement"
  | .sequence t => "Sequence(" ++ nameText t ++ ")"

def selectList (s : Schema) : String := ", ".intercalate (s.selected.map (·.quoted))

def summary (s : Schema) : String :=
  recordText "Schema" [
    ("table_name", quotedString s.table.name),
    ("table", nameText s.table),
    ("id", nameText s.id),
    ("left", nameText s.left),
    ("right", nameText s.right),
    ("parent", nameText s.parent),
    ("payload", "[" ++ ", ".intercalate (s.fields.map fieldText) ++ "]"),
    ("order", nameText s.orderColumn),
    ("partition", optionText (s.partition.map partitionText)),
    ("ids", idsText s.ids),
    ("select_list", quotedString s.selectList)]

end NestedSet.Schema
