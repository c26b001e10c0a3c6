import NestedSet.Event
import NestedSet.Request

/-!
# Procedures on a database

A procedure issues statements one after another and goes on with their
replies. It keeps what its statements have done when one of them is refused;
undoing that is left to the transaction around it. On the way it reports
events. Any statement may also fail from outside, so every run is given a list
that says which do.
-/

set_option autoImplicit false

namespace NestedSet

inductive Procedure (α : Type) where
  | done (answer : Except TreeError α)
  | issue (q : Request) (next : q.Reply → Procedure α)
  | report (event : Event) (next : Procedure α)

namespace Procedure

variable {α β γ : Type}

def bind (p : Procedure α) (f : α → Procedure β) : Procedure β :=
  match p with
  | done (.ok a) => f a
  | done (.error e) => done (.error e)
  | issue q next => issue q fun a => (next a).bind f
  | report event next => report event (next.bind f)

instance : Monad Procedure where
  pure a := done (.ok a)
  bind := bind

instance : MonadExceptOf TreeError Procedure where
  throw e := done (.error e)
  tryCatch p _ := p

instance : MonadLift (Except TreeError) Procedure where
  monadLift := done

def request (q : Request) : Procedure q.Reply := issue q pure

def tell (event : Event) : Procedure Unit := report event (pure ())

end Procedure

/-- Which of the coming statements fail from outside, and how; beyond its end none does. -/
abbrev Mishaps := List (Option Refusal)

/-- The database at work, the fate of the coming statements, and the events so far. -/
structure Desk where
  database : Database
  mishaps : Mishaps := []
  events : List Event := []
  /-- Whether someone else is writing, so that nothing may be changed. -/
  locked : Bool := false
  deriving DecidableEq, Repr

namespace Desk

def mishap? (d : Desk) : Option Refusal := d.mishaps.head?.join

def advance (d : Desk) (db : Database) : Desk :=
  { d with database := db, mishaps := d.mishaps.tail }

def report (d : Desk) (event : Event) : Desk := { d with events := d.events ++ [event] }

/-- What becomes of a change: behind a lock it is refused, unless it could not be made out. -/
def allow {α : Type} (d : Desk) (change : Except Refusal α) : Except Refusal α :=
  if d.locked then
    match change with
    | .ok _ => .error .locked
    | .error refusal => .error (if refusal.precedesLock then refusal else .locked)
  else change

def outcome (d : Desk) (s : Schema) (q : Request) : Except Refusal (q.Reply × Database) :=
  match d.mishap? with
  | some refusal => .error refusal
  | none =>
    if q.isQuestion then q.statement s d.database else d.allow (q.statement s d.database)

def serve (d : Desk) (s : Schema) (q : Request) : Except Refusal q.Reply × Desk :=
  match d.outcome s q with
  | .ok (a, db) => (.ok a, d.advance db)
  | .error refusal => (.error refusal, d.advance d.database)

end Desk

namespace Procedure

variable {α β : Type}

/-- The answer of a procedure on the tree of a schema, and the desk it leaves. A refusal names the
step that the statement belongs to. -/
def result (s : Schema) : Procedure α → Desk → Except TreeError α × Desk
  | done answer, d => (answer, d)
  | issue q next, d =>
    match d.serve s q with
    | (.ok a, d') => (next a).result s d'
    | (.error refusal, d') => (.error (.backend q.step refusal), d')
  | report event next, d => next.result s (d.report event)

theorem result_bind (s : Schema) (p : Procedure α) (f : α → Procedure β) (d : Desk) :
    (p >>= f).result s d =
      match p.result s d with
      | (.ok a, d') => (f a).result s d'
      | (.error e, d') => (.error e, d') := by
  change (p.bind f).result s d = _
  induction p generalizing d with
  | done answer => cases answer <;> rfl
  | issue q next ih =>
    simp only [bind, result]
    rcases d.serve s q with ⟨answer, d'⟩
    cases answer with
    | error refusal => rfl
    | ok a => exact ih a d'
  | report event next ih => exact ih _

end Procedure

end NestedSet
