import NestedSet.Table

/-!
# Changing a table

A statement on a table either gives its answer and the table after it, or is
refused as a whole: for an id that is none, by a fault, for an empty column, for
a value that must not occur twice, or for want of room. Columns that are not
there come first.
-/

set_option autoImplicit false

namespace NestedSet

def maxId : Int := Nat.pow 2 63 - 1

def Fault.fires (f : Fault) (t : Table) (columns : List Identifier) (old new : Row) : Bool :=
  match f.watched? with
  | none => false
  | some column =>
    let before := (t.cell column old).value
    let after := (t.cell column new).value
    columns.any (·.key == column.key) &&
      match f.kind with
      | .leftUp | .rightUp => before.below after
      | .leftDown | .rightDown => after.below before
      | .reparent (some id) => (t.cell f.schema.id old).equals (.integer id)
      | _ => true

namespace Table

def largestId? (t : Table) : Option Int := (t.rows.map (·.id)).max?

def freshId (t : Table) : Except Refusal Int :=
  match t.counter with
  | some n =>
    let last := max n (t.largestId?.getD 0)
    if last < maxId then .ok (last + 1) else .error .outOfIds
  | none =>
    match t.largestId? with
    | none => .ok 1
    | some n => if n < maxId then .ok (n + 1) else .error .outOfIds

def idFor (t : Table) : Option Int → Except Refusal Int
  | some id => .ok id
  | none => t.freshId

def guards (t : Table) (faults : List Fault) : List Fault := faults.filter (·.guards t.key)

def emptyColumn? (columns : List Column) (r : Row) : Option Column :=
  columns.find? fun c => c.notNull && r.get c.key == .null

/-- A unique column in which another row agrees; the columns declared last are compared first. -/
def clash? (columns : List Column) (others : List Row) (r : Row) : Option Column :=
  columns.reverse.find? fun c => c.unique && others.any fun o =>
    (c.collation.image (o.get c.key)).equals (c.collation.image (r.get c.key))

/-- Why a row with some columns newly given is refused among the others. -/
def objection? (t : Table) (given : List Identifier) (others : List Row) (r : Row) :
    Option Refusal :=
  let columns := t.columns.filter fun c => given.any (·.key == c.key)
  match emptyColumn? columns r with
  | some c => some (.notNull t.name.name c.name.name)
  | none =>
    if given.any t.isId && others.any (·.id == r.id) then
      some (.notUnique t.name.name t.id.name)
    else (clash? columns others r).map fun c => .notUnique t.name.name c.name.name

/-- The id that a row to be inserted brings, if it brings one; it is the last one given. -/
def broughtId (t : Table) (values : List (Identifier × Value)) : Except Refusal (Option Int) :=
  match values.reverse.find? fun (column, _) => t.isId column with
  | none => .ok none
  | some (_, .null) => .ok none
  | some (_, v) =>
    match idOf? v with
    | some id => .ok (some id)
    | none => .error .idMismatch

def insertById (r : Row) : List Row → List Row
  | [] => [r]
  | o :: rest => if r.id < o.id then r :: o :: rest else o :: insertById r rest

theorem length_insertById (r : Row) (rows : List Row) :
    (insertById r rows).length = rows.length + 1 := by
  induction rows with
  | nil => rfl
  | cons o rest ih => by_cases h : r.id < o.id <;> simp [insertById, h, ih]

def withRow (t : Table) (r : Row) (hroom : t.rows.length < capacity) : Table :=
  { t with
    rows := insertById r t.rows
    counter := t.counter.map (max r.id)
    fits := length_insertById r t.rows ▸ hroom }

@[simp] theorem rows_withRow (t : Table) (r : Row) (hroom : t.rows.length < capacity) :
    (t.withRow r hroom).rows = insertById r t.rows := rfl

def place (t : Table) (r : Row) : Except Refusal Table :=
  match t.objection? t.names t.rows r with
  | some refusal => .error refusal
  | none => if hroom : t.rows.length < capacity then .ok (t.withRow r hroom) else .error .outOfIds

def insert (t : Table) (faults : List Fault) (values : List (Identifier × Value)) :
    Except Refusal (Int × Table) := do
  let brought ← t.broughtId values
  if let some f := (t.guards faults).find? (·.kind.isOnInsert) then throw f.refusal
  let id ← t.idFor brought
  return (id, ← t.place (t.newRow id values))

def misnumbers (t : Table) (u : Revision Row) (r : Row) : Bool :=
  u.sets.any fun (column, value) => t.isId column && (idOf? (value r)).isNone

/-- Why a revision is refused at one row, if it is, while the others are as given. -/
def revisionObjection? (t : Table) (faults : List Fault) (u : Revision Row) (others : List Row)
    (old : Row) : Option Refusal :=
  let new := t.revised u old
  if t.misnumbers u old then some .idMismatch
  else
    match (t.guards faults).find? fun f => f.fires t u.columns old new with
    | some f => some f.refusal
    | none => t.objection? u.columns others new

/-- The first objection when rows are revised one after another, beside rows that are settled. -/
def firstObjection? (t : Table) (faults : List Fault) (u : Revision Row) :
    List Row → List Row → Option Refusal
  | _, [] => none
  | settled, old :: rest =>
    match t.revisionObjection? faults u (settled ++ rest) old with
    | some refusal => some refusal
    | none => firstObjection? t faults u (t.revised u old :: settled) rest

/-- The selected rows in the order in which they are revised, by the first assigned column. -/
def visited (t : Table) (u : Revision Row) : List Row :=
  let selected := t.rows.filter u.selects
  match u.columns with
  | [] => selected
  | column :: _ => selected.mergeSort fun a b => (t.cell column a).value.le (t.cell column b).value

def sortRows (t : Table) : Table :=
  { t with
    rows := t.rows.mergeSort fun a b => decide (a.id ≤ b.id)
    fits := by simpa using t.fits }

def update (t : Table) (faults : List Fault) (u : Revision Row) :
    Except Refusal (Nat × Table) :=
  match t.stranger? u.columns with
  | some column => .error (.unknownColumn column.name)
  | none =>
    match t.firstObjection? faults u (t.rows.filter fun r => !u.selects r) (t.visited u) with
    | some refusal => .error refusal
    | none =>
      let revised := t.mapRows (t.revise u)
      .ok (t.rows.countP u.selects, if u.columns.any t.isId then revised.sortRows else revised)

def delete (t : Table) (faults : List Fault) (selects : Row → Bool) :
    Except Refusal (Nat × Table) :=
  let count := t.rows.countP selects
  match (t.guards faults).find? (·.kind == .delete) with
  | some f => if count = 0 then .ok (0, t) else .error f.refusal
  | none => .ok (count, t.filterRows fun r => !selects r)

end Table

end NestedSet
