import NestedSet.Procedure

/-!
# Stores and their transactions

A store is a database that several connections share. At most one of them has
a write transaction open; it works on a draft that the others do not see. A
commit makes the draft the database, a rollback forgets it. Outside a
transaction every statement takes effect on its own.
-/

set_option autoImplicit false

namespace NestedSet

structure Writer where
  connection : Nat
  draft : Database
  deriving DecidableEq, Repr

structure Store where
  committed : Database := {}
  /-- The connection that has a transaction open, if any. -/
  writer : Option Writer := none
  deriving DecidableEq, Repr

/-- The answer of an operation, the store after it, the events reported on the way, and the
fate of the statements still to come. -/
structure Outcome (α : Type) where
  answer : Except TreeError α
  store : Store
  events : List Event := []
  mishaps : Mishaps := []

namespace Store

def isWriting (s : Store) (connection : Nat) : Bool :=
  s.writer.any (·.connection == connection)

def view (s : Store) (connection : Nat) : Database :=
  match s.writer with
  | some w => if w.connection = connection then w.draft else s.committed
  | none => s.committed

def start (s : Store) (connection : Nat) : Except TreeError Store :=
  match s.writer with
  | some _ => .error (.backend .begin .locked)
  | none => .ok { s with writer := some ⟨connection, s.committed⟩ }

def abandon (s : Store) (connection : Nat) : Store :=
  if s.isWriting connection then { s with writer := none } else s

def commit (s : Store) (connection : Nat) : Except TreeError Store :=
  match s.writer with
  | some w =>
    if w.connection = connection then .ok ⟨w.draft, none⟩
    else .error (.backend .commit .nothingToCommit)
  | none => .error (.backend .commit .nothingToCommit)

def rollback (s : Store) (connection : Nat) : Except TreeError Store :=
  if s.isWriting connection then .ok (s.abandon connection)
  else .error (.backend .rollback .nothingToRollBack)

def replace (s : Store) (connection : Nat) (db : Database) : Store :=
  match s.writer with
  | some w =>
    if w.connection = connection then { s with writer := some { w with draft := db } }
    else { s with committed := db }
  | none => { s with committed := db }

def mayWrite (s : Store) (connection : Nat) : Bool :=
  s.writer.all (·.connection == connection)

/-- Runs a procedure on what a connection sees, and keeps what it has done whether it succeeds
or fails. A failure that ends the transaction undoes the draft. -/
def run {α : Type} (s : Store) (connection : Nat) (schema : Schema) (procedure : Procedure α)
    (mishaps : Mishaps := []) : Outcome α :=
  let (answer, desk) :=
    procedure.result schema ⟨s.view connection, mishaps, [], !s.mayWrite connection⟩
  let kept := s.replace connection desk.database
  match answer with
  | .error e =>
    ⟨.error e, if e.endsTransaction && s.isWriting connection then s.abandon connection else kept,
      desk.events, desk.mishaps⟩
  | .ok a => ⟨.ok a, kept, desk.events, desk.mishaps⟩

/-- Commits after a success, and undoes everything if the commit fails. -/
def settle {α : Type} (connection : Nat) (a : α) (o : Outcome α) : Outcome α :=
  match o.mishaps.head?.join with
  | some refusal =>
    ⟨.error (.backend .commit refusal), o.store.abandon connection, o.events, o.mishaps.tail⟩
  | none =>
    match o.store.commit connection with
    | .ok store => ⟨.ok a, store, o.events, o.mishaps.tail⟩
    | .error e => ⟨.error e, o.store.abandon connection, o.events, o.mishaps.tail⟩

/-- Rolls back after a failure. It is reported if the database refused a statement, and so is a
rollback that fails because there is no transaction any more. -/
def undo {α : Type} (operation : Operation) (connection : Nat) (e : TreeError) (o : Outcome α) :
    Outcome α :=
  let rolling := e.failedStep?.toList.map fun step => Event.rollingBack operation step e
  match o.store.rollback connection with
  | .ok store => ⟨.error e, store, o.events ++ rolling, o.mishaps⟩
  | .error failure =>
    ⟨.error e, o.store, o.events ++ rolling ++ [.rollbackFailed operation failure], o.mishaps⟩

def atomically {α : Type} (s : Store) (connection : Nat) (schema : Schema)
    (operation : Operation) (procedure : Procedure α) (mishaps : Mishaps := []) : Outcome α :=
  match mishaps.head?.join with
  | some refusal => ⟨.error (.backend .begin refusal), s, [], mishaps.tail⟩
  | none =>
    match s.start connection with
    | .error e => ⟨.error e, s, [], mishaps.tail⟩
    | .ok started =>
      let o := started.run connection schema procedure mishaps.tail
      match o.answer with
      | .ok a => settle connection a o
      | .error e => undo operation connection e o

end Store

end NestedSet
