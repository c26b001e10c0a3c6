import NestedSet.Table.Change

/-!
# Databases

A database holds tables and the names of indexes; table and index names share
one space, without regard to ASCII case. Installing a
schema creates the objects that are missing, one after another, and stops at
the first that is refused; those created before it remain.
-/

set_option autoImplicit false

namespace NestedSet

structure Index where
  name : String
  definition : String
  deriving DecidableEq, Repr

structure Database where
  tables : List Table := []
  indexes : List Index := []
  faults : List Fault := []
  deriving DecidableEq, Repr

abbrev Statement (α : Type) := Database → Except Refusal (α × Database)

namespace Database

def table? (db : Database) (name : Identifier) : Option Table :=
  db.tables.find? (·.key == name.key)

def table (db : Database) (name : Identifier) : Except Refusal Table :=
  match db.table? name with
  | some t => .ok t
  | none => .error (.missingTable name.name)

def setTable (db : Database) (t : Table) : Database :=
  { db with tables := db.tables.map fun o => if o.key = t.key then t else o }

def hasTable (db : Database) (key : String) : Bool := db.tables.any (·.key == key)

def hasIndex (db : Database) (key : String) : Bool :=
  db.indexes.any fun i => Text.fold i.name == key

def onTable {α : Type} (name : Identifier)
    (statement : Table → List Fault → Except Refusal (α × Table)) : Statement α := fun db => do
  let t ← db.table name
  let (a, t) ← statement t db.faults
  return (a, db.setTable t)

/-- Names that begin so are kept for the database itself. -/
def reservedStart : String := "sqlite_"

def isReserved (key : String) : Bool := reservedStart.toList.isPrefixOf key.toList

def vacancy (db : Database) (name : Identifier) : Except Refusal Bool :=
  if isReserved name.key then .error (.reservedName name.name)
  else if db.hasTable name.key then .ok false
  else if db.hasIndex name.key then .error (.nameOfIndex name.name)
  else .ok true

def createTable (t : Table) : Statement Unit := fun db => do
  if ← db.vacancy t.name then
    match t.duplicate? with
    | some column => throw (.duplicateColumn column.name)
    | none => return ((), { db with tables := db.tables ++ [t] })
  else return ((), db)

def createIndex (i : Index) : Statement Unit := fun db =>
  let key := Text.fold i.name
  if isReserved key then .error (.reservedName i.name)
  else if db.hasTable key then .error (.nameOfTable i.name)
  else if db.hasIndex key then .ok ((), db)
  else .ok ((), { db with indexes := db.indexes ++ [i] })

def installation (s : Schema) : List (Statement Unit) :=
  [createTable (.ofSchema s)] ++
  (s.indexes.map fun (name, definition) => createIndex ⟨name, definition⟩) ++
  (match s.ids with
    | .autoIncrement => []
    | .sequence name => [createTable (.ofSequence name)])

def script : List (Statement Unit) → Database → Except Refusal Unit × Database
  | [], db => (.ok (), db)
  | statement :: rest, db =>
    match statement db with
    | .ok ((), db) => script rest db
    | .error refusal => (.error refusal, db)

def install (s : Schema) (db : Database) : Except Refusal Unit × Database :=
  script (installation s) db

def definitions (db : Database) : List String :=
  let named :=
    (db.tables.map fun t => (t.name.name, t.definition)) ++
    (db.indexes.map fun i => (i.name, i.definition))
  (named.mergeSort fun a b => decide (a.1 ≤ b.1)).map (·.2)

def addFault (f : Fault) (db : Database) : Database :=
  { db with faults := f :: db.faults.filter (·.kind.name != f.kind.name) }

def removeFault (kindName : String) (db : Database) : Database :=
  { db with faults := db.faults.filter (·.kind.name != kindName) }

end Database

end NestedSet
