import NestedSet.Database
import NestedSet.Gap
import NestedSet.Reading
import NestedSet.Sequence

/-!
# The statements of the edits

The edits of a tree are made of a few kinds of statements on the tables of its
schema. Each belongs to a logical step, which names it where the database
refuses it, and replies with a value of its own kind. Questions change
nothing and wait for no lock.
-/

set_option autoImplicit false

namespace NestedSet

namespace Schema

def records (s : Schema) (db : Database) : Except Refusal (List Record) := do
  return s.recordsOf (← db.table s.table)

/-- How the texts of the column are compared by which generations are listed. -/
def collation (s : Schema) (db : Database) : Collation :=
  (((db.table? s.table).bind fun t => t.column? s.orderColumn.key).map (·.collation)).getD .binary

def size (s : Schema) (db : Database) : Except Refusal Nat := do
  return (← s.records db).length

def element? (s : Schema) (id : Int) (db : Database) : Except Refusal (Option Node) := do
  Reading.element? (← s.records db) id

def revise (s : Schema) (u : Revision Record) : Statement Nat :=
  Database.onTable s.table fun t faults =>
    t.update faults (u.through (s.inScope t) (s.record t))

def deleteRange (s : Schema) (b : Bounds) : Statement Nat :=
  Database.onTable s.table fun t faults =>
    t.delete faults fun r =>
      let left := (s.record t r).left
      s.inScope t r && (left.atLeast b.left && left.atMost b.right)

def entry (s : Schema) (id : Option Int) (bounds : Bounds) (parent : Option Int)
    (values : List (Field × Value)) : List (Identifier × Value) :=
  (id.map fun id => (s.id, .integer id)).toList ++
  [(s.left, .integer bounds.left), (s.right, .integer bounds.right),
    (s.parent, (parent.map Value.integer).getD .null)] ++
  (s.partition.map fun p => (p.column, p.key.value)).toList ++
  values.map fun (f, v) => (f.column, v)

/-- Inserts a node and answers its id, which is that of its row if it brings none. -/
def insertNode (s : Schema) (id : Option Int) (bounds : Bounds) (parent : Option Int)
    (values : List (Field × Value)) : Statement Int := fun db => do
  let entry := s.entry id bounds parent values
  let (row, db) ← Database.onTable s.table (fun t faults =>
    match t.stranger? (entry.map (·.1)) with
    | some column => .error (.missingColumn s.table.name column.name)
    | none => t.insert faults entry) db
  return (id.getD row, db)

def largestId (s : Schema) (db : Database) : Except Refusal Int := do
  let t ← db.table s.table
  let ids := t.rows.map fun r => (t.cell s.id r).value
  match ids.foldl Value.max .null with
  | .null => return 0
  | .integer n => return n
  | v => throw (.wrongKind v 0 s!"COALESCE(MAX({s.id.quoted}), 0)")

/-- The counter that a sequence keeps for the schema's table, by the table's name as spelled. -/
def counter? (s : Schema) (sequence : Identifier) (db : Database) :
    Except Refusal (Option Int) := do
  Sequence.value? (← db.table sequence) s.table.name

def setCounter (s : Schema) (sequence : Identifier) (value : Int) : Statement Unit :=
  Database.onTable sequence fun t faults => Sequence.set t faults s.table.name value

end Schema

inductive Change where
  | pushLefts (pivot width : Int)
  | pushRights (pivot width : Int)
  | reparent (id parent : Int)
  | shiftInside (subtree : Bounds) (offset : Int)
  | pullFollowing (gap : Bounds)
  | pullEnclosing (gap : Bounds)
  | payload (id : Int) (values : List (Field × Value))
  deriving DecidableEq, Repr

namespace Change

def step : Change → Step
  | .pushLefts .. => .makeRoom
  | .pushRights .. => .makeRoom
  | .reparent .. => .reparent
  | .shiftInside .. => .offset
  | .pullFollowing _ => .collapse
  | .pullEnclosing _ => .collapse
  | .payload .. => .updatePayload

def revision (s : Schema) : Change → Revision Record
  | .pushLefts pivot width => .pushLefts s pivot width
  | .pushRights pivot width => .pushRights s pivot width
  | .reparent id parent => .reparent s id parent
  | .shiftInside subtree offset => .shiftInside s subtree offset
  | .pullFollowing gap => .pullFollowing s gap
  | .pullEnclosing gap => .pullEnclosing s gap
  | .payload id values => .payload id values

end Change

inductive Request where
  /-- Looks a node up. -/
  | find (id : Int)
  /-- Counts the nodes. -/
  | count
  | counter (sequence : Identifier)
  | largestId
  | setCounter (sequence : Identifier) (value : Int)
  | insert (id : Option Int) (bounds : Bounds) (parent : Option Int)
    (values : List (Field × Value))
  /-- Deletes the nodes whose left marker lies in a range. -/
  | delete (range : Bounds)
  | revise (change : Change)
  deriving DecidableEq, Repr

namespace Request

abbrev Reply : Request → Type
  | find _ => Option Node
  | count => Nat
  | counter _ => Option Int
  | largestId => Int
  | setCounter .. => Unit
  | insert .. => Int
  | delete _ => Nat
  | revise _ => Nat

def step : Request → Step
  | find _ => .resolve
  | count => .resolve
  | counter _ => .allocateId
  | largestId => .allocateId
  | setCounter .. => .allocateId
  | insert .. => .insert
  | delete _ => .deleteSubtree
  | revise c => c.step

def isQuestion : Request → Bool
  | find _ => true
  | count => true
  | counter _ => true
  | largestId => true
  | _ => false

def ask {α : Type} (question : Database → Except Refusal α) : Statement α := fun db => do
  return (← question db, db)

def statement (s : Schema) : (q : Request) → Statement q.Reply
  | find id => ask (s.element? id)
  | count => ask s.size
  | counter sequence => ask (s.counter? sequence)
  | largestId => ask s.largestId
  | setCounter sequence value => s.setCounter sequence value
  | insert id bounds parent values => s.insertNode id bounds parent values
  | delete range => s.deleteRange range
  | revise c => s.revise (c.revision s)

theorem ask_ok {α : Type} {question : Database → Except Refusal α} {db db' : Database} {a : α}
    (h : ask question db = .ok (a, db')) : question db = .ok a ∧ db' = db := by
  unfold ask at h
  cases hq : question db with
  | error refusal => simp [hq, bind, Except.bind] at h
  | ok b =>
    simp only [hq, bind, Except.bind, pure, Except.pure, Except.ok.injEq, Prod.mk.injEq] at h
    exact ⟨by rw [h.1], h.2.symm⟩

theorem statement_of_isQuestion {s : Schema} {q : Request} {db db' : Database} {a : q.Reply}
    (hq : q.isQuestion = true) (h : q.statement s db = .ok (a, db')) : db' = db := by
  cases q with
  | find id => exact (ask_ok h).2
  | count => exact (ask_ok h).2
  | counter sequence => exact (ask_ok h).2
  | largestId => exact (ask_ok h).2
  | setCounter sequence value => cases hq
  | insert id bounds parent values => cases hq
  | delete range => cases hq
  | revise c => cases hq

end Request

end NestedSet
