import NestedSet.Handle

/-!
# Sessions

In a session several handles work on one store. The user of a handle may hold a
transaction; the edits through that handle then go into it until it is ended.
A held transaction may have been ended before by a failure, or behind the back
of its user; then every statement takes effect on its own.
-/

set_option autoImplicit false

namespace NestedSet

structure Session where
  store : Store := {}
  /-- The connections whose user holds a transaction. -/
  held : List Nat := []
  deriving DecidableEq, Repr

inductive Ending where
  | commit
  | rollback
  /-- Lets go of it without a word, which rolls back what is still open. -/
  | drop
  deriving DecidableEq, Repr

def Ending.close (connection : Nat) (mishaps : Mishaps) (s : Store) :
    Ending → Except TreeError Store
  | .commit =>
    match mishaps.head?.join with
    | some refusal => .error (.backend .commit refusal)
    | none => s.commit connection
  | .rollback => s.rollback connection
  | .drop => .ok (s.abandon connection)

inductive Command where
  | edit (e : Edit)
  /-- Moves one node after another; a failure does not stop the batch. -/
  | moveAll (ids : List Int) (placement : Placement)
  | begin
  | finish (ending : Ending)
  /-- Ends the transaction without the user's knowledge. -/
  | endBehind
  deriving DecidableEq, Repr

abbrev MoveReport := List (Int × Except TreeError Answer)

namespace MoveReport

def isSuccess (r : MoveReport) : Bool := r.all fun (_, result) => result.toBool

def moved (r : MoveReport) : List Int :=
  r.filterMap fun (id, result) =>
    match result with
    | .ok (.placed .moved) => some id
    | _ => none

def failed (r : MoveReport) : List Int :=
  r.filterMap fun (id, result) => if result.toBool then none else some id

end MoveReport

inductive Reply where
  | answer (a : Except TreeError Answer)
  | report (r : MoveReport)
  | done (r : Except TreeError Unit)

namespace Session

def isHeld (s : Session) (h : Handle) : Bool := s.held.contains h.connection

def edit (s : Session) (h : Handle) (e : Edit) (mishaps : Mishaps := []) : Outcome Answer :=
  if s.isHeld h then h.editWithin s.store e mishaps else h.edit s.store e mishaps

def moveAll (s : Session) (h : Handle) (placement : Placement) :
    List Int → Mishaps → MoveReport × Session × List Event
  | [], _ => ([], s, [])
  | id :: rest, mishaps =>
    let o := s.edit h (.move id placement) mishaps
    let (report, last, events) := moveAll { s with store := o.store } h placement rest o.mishaps
    ((id, o.answer) :: report, last, o.events ++ events)

def begin (s : Session) (h : Handle) (mishaps : Mishaps := []) : Except TreeError Session :=
  match mishaps.head?.join with
  | some refusal => .error (.backend .begin refusal)
  | none => do return ⟨← s.store.start h.connection, h.connection :: s.held⟩

def finish (s : Session) (h : Handle) (ending : Ending) (mishaps : Mishaps := []) :
    Except TreeError Unit × Session :=
  match ending.close h.connection mishaps s.store with
  | .ok store => (.ok (), ⟨store, s.held.erase h.connection⟩)
  | .error e => (.error e, ⟨s.store.abandon h.connection, s.held.erase h.connection⟩)

def perform (s : Session) (h : Handle) (command : Command) (mishaps : Mishaps := []) :
    Reply × Session × List Event :=
  match command with
  | .edit e =>
    let o := s.edit h e mishaps
    (.answer o.answer, { s with store := o.store }, o.events)
  | .moveAll ids placement =>
    let (report, s, events) := s.moveAll h placement ids mishaps
    (.report report, s, events)
  | .begin =>
    match s.begin h mishaps with
    | .ok s => (.done (.ok ()), s, [])
    | .error e => (.done (.error e), s, [])
  | .finish ending =>
    let (r, s) := s.finish h ending mishaps
    (.done r, s, [])
  | .endBehind => (.done (.ok ()), { s with store := s.store.abandon h.connection }, [])

def run : Session → List (Handle × Command × Mishaps) → List Reply × Session
  | s, [] => ([], s)
  | s, (h, command, mishaps) :: rest =>
    let (reply, s, _) := s.perform h command mishaps
    let (replies, s) := run s rest
    (reply :: replies, s)

end Session

end NestedSet
