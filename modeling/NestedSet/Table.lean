import NestedSet.Cell
import NestedSet.Column
import NestedSet.Row
import NestedSet.Schema.Definition

/-!
# Tables

A table keeps its rows by increasing id. It may number new rows by a counter
that only rises, or by the largest id it holds. There are tables of trees and
tables of sequences, but schemas name columns by their own lights: what one
keeps its markers in may be payload to another. A name that is no column of
the table is taken for a text where a value is read. No file holds more than a
certain number of rows.
-/

set_option autoImplicit false

namespace NestedSet

/-- Whether the columns of all fields have all that their types say, so that the statements on
them are those of the database. -/
def Schema.IsCovered (s : Schema) : Prop :=
  ∀ f ∈ s.fields, Column.isCovered (f.sqlType.getD "") = true

instance (s : Schema) : Decidable s.IsCovered :=
  inferInstanceAs (Decidable (∀ f ∈ s.fields, _))

/-- A bound on the rows of one table: the largest file has fewer bytes. -/
def Table.capacity : Nat := Nat.pow 2 48

theorem Table.capacity_pos : 0 < Table.capacity := by decide

structure Table where
  name : Identifier
  definition : String
  /-- The column of the ids, which are integers. -/
  id : Identifier
  /-- The other columns, in the order of declaration. -/
  columns : List Column
  /-- The largest id ever given, if the table numbers its rows by a counter. -/
  counter : Option Int
  rows : List Row
  fits : rows.length ≤ Table.capacity := by decide
  deriving DecidableEq, Repr

namespace Table

def key (t : Table) : String := t.name.key

def partitionColumn (p : Partition) : Column :=
  match p.key with
  | .integer _ => { name := p.column, affinity := .numeric, notNull := true }
  | .text _ => { name := p.column, affinity := .text, notNull := true }

def columnsOf (s : Schema) : List Column :=
  [{ name := s.left, affinity := .numeric, notNull := true },
    { name := s.right, affinity := .numeric, notNull := true },
    { name := s.parent, affinity := .numeric }] ++
  (s.partition.map partitionColumn).toList ++
  s.fields.flatMap fun f => Column.declared f.column (f.sqlType.getD "")

def ofSchema (s : Schema) : Table where
  name := s.table
  definition := s.tableDefinition
  id := s.id
  columns := columnsOf s
  counter :=
    match s.ids with
    | .autoIncrement => some 0
    | .sequence _ => none
  rows := []

/-- The empty table of a sequence: counters by name. Its ids are not declared. -/
def ofSequence (name : Identifier) : Table where
  name := name
  definition := Schema.sequenceDefinition name
  id := ⟨"rowid"⟩
  columns := [{ name := ⟨"name"⟩, affinity := .text, unique := true },
    { name := ⟨"value"⟩, affinity := .numeric, notNull := true }]
  counter := none
  rows := []

def repeated? (taken : List String) : List Identifier → Option Identifier
  | [] => none
  | column :: rest =>
    if column.key ∈ taken then some column else repeated? (column.key :: taken) rest

/-- A column that is declared twice; the checks of a schema do not see those that a type adds. -/
def duplicate? (t : Table) : Option Identifier := repeated? [t.id.key] (t.columns.map (·.name))

def column? (t : Table) (key : String) : Option Column := t.columns.find? (·.key == key)

/-- Names by which the ids of any table are known, unless a column has the name. -/
def idAliases : List String := ["rowid", "oid", "_rowid_"]

def isId (t : Table) (column : Identifier) : Bool :=
  column.key == t.id.key || (idAliases.contains column.key && (t.column? column.key).isNone)

def hasColumn (t : Table) (column : Identifier) : Bool :=
  t.isId column || (t.column? column.key).isSome

def stranger? (t : Table) (columns : List Identifier) : Option Identifier :=
  columns.find? fun column => !t.hasColumn column

def names (t : Table) : List Identifier := t.id :: t.columns.map (·.name)

def cell (t : Table) (column : Identifier) (r : Row) : Cell :=
  if t.isId column then ⟨t.id.name, .numeric, .integer r.id⟩
  else
    match t.column? column.key with
    | some c => ⟨c.name.name, c.affinity, r.get c.key⟩
    | none => ⟨column.quoted, .none, .text column.name⟩

def hold (t : Table) (key : String) (v : Value) : Value :=
  match t.column? key with
  | some c => c.hold v
  | none => v

def idOf? (v : Value) : Option Int :=
  match Affinity.toNumber v with
  | .integer n => some n
  | _ => none

/-- The row with one column overwritten; an id is only ever overwritten by an id. -/
def assign (t : Table) (column : Identifier) (v : Value) (r : Row) : Row :=
  if t.isId column then { r with id := (idOf? v).getD r.id }
  else r.put column.key (t.hold column.key v)

def revised (t : Table) (u : Revision Row) (r : Row) : Row :=
  u.sets.foldl (fun new (column, value) => t.assign column (value r) new) r

def revise (t : Table) (u : Revision Row) (r : Row) : Row :=
  if u.selects r then t.revised u r else r

def newRow (t : Table) (id : Int) (values : List (Identifier × Value)) : Row where
  id := id
  cells := t.columns.map fun c =>
    (c.key, match values.find? fun (column, _) => column.key == c.key with
      | some (_, v) => c.hold v
      | none => c.initial)

def mapRows (t : Table) (f : Row → Row) : Table :=
  { t with rows := t.rows.map f, fits := by simpa using t.fits }

def filterRows (t : Table) (keep : Row → Bool) : Table :=
  { t with rows := t.rows.filter keep, fits := Nat.le_trans (List.length_filter_le ..) t.fits }

@[simp] theorem rows_mapRows (t : Table) (f : Row → Row) : (t.mapRows f).rows = t.rows.map f := rfl

theorem key_of_column? {t : Table} {key : String} {c : Column} (h : t.column? key = some c) :
    c.key = key := by
  simpa using List.find?_some h

theorem cell_of_isId {t : Table} {column : Identifier} (h : t.isId column = true) (r : Row) :
    t.cell column r = ⟨t.id.name, .numeric, .integer r.id⟩ := by
  simp [cell, h]

theorem cell_of_column? {t : Table} {column : Identifier} {c : Column}
    (hid : t.isId column = false) (h : t.column? column.key = some c) (r : Row) :
    t.cell column r = ⟨c.name.name, c.affinity, r.get column.key⟩ := by
  simp [cell, hid, h, key_of_column? h]

theorem cell_assign_self {t : Table} {column : Identifier} {c : Column}
    (hid : t.isId column = false) (h : t.column? column.key = some c) (v : Value) (r : Row) :
    t.cell column (t.assign column v r) = ⟨c.name.name, c.affinity, c.hold v⟩ := by
  rw [cell_of_column? hid h]
  simp [assign, hold, hid, h, Row.get_put_self]

theorem cell_assign_of_ne {t : Table} {column other : Identifier} (h : other.key ≠ column.key)
    (hid : t.isId column = false ∨ t.isId other = false) (v : Value) (r : Row) :
    t.cell other (t.assign column v r) = t.cell other r := by
  cases hc : t.isId column with
  | true =>
    have ho : t.isId other = false := by simpa [hc] using hid
    simp [cell, assign, hc, ho, Row.get]
  | false =>
    cases hf : t.column? other.key with
    | none => simp [cell, assign, hc, hf, Row.id_put]
    | some c =>
      have hk : c.key ≠ column.key := key_of_column? hf ▸ h
      simp [cell, assign, hc, hf, Row.id_put, Row.get_put_of_ne hk]

end Table

end NestedSet
