import NestedSet.Editing
import NestedSet.Store

/-!
# Handles

A handle is one connection to a store together with a checked schema. An edit
through it runs in a transaction of its own, or else in one that the user of
the handle holds, which leaves what the edit did to the transaction's end.
-/

set_option autoImplicit false

namespace NestedSet

structure Handle where
  connection : Nat
  schema : Schema
  deriving DecidableEq, Repr

namespace Handle

/-- Opens a handle with a connection of its own. Where the database cannot be reached, that is
found before the mapping is checked. -/
def open? (reachable : Bool) (connection : Nat) (config : Config) :
    Except TreeError (Handle × List Event) :=
  if reachable then
    match config.mapping.validate with
    | .error e => .error (.invalidSchema e)
    | .ok schema => .ok (⟨connection, schema⟩, [.handleReady schema.table.name])
  else .error .unreachable

/-- Creates the tables and indexes that are missing, each statement for good. Nothing is
written, and no lock needed, where nothing is missing. -/
def ensure (h : Handle) (s : Store) : Except TreeError Unit × Store :=
  let (answer, db) := (s.view h.connection).install h.schema
  if db = s.view h.connection || s.mayWrite h.connection then
    (answer.mapError (.backend .install), s.replace h.connection db)
  else (.error (.backend .install .locked), s)

/-- Asks something of the records that the handle sees. While another connection is writing and
keeps the file to itself, which it does once its draft has outgrown its memory, nothing can be
read. -/
def read {α : Type} (h : Handle) (s : Store) (question : List Record → Except TreeError α)
    (exclusive : Bool := false) : Except TreeError α :=
  if exclusive && !s.mayWrite h.connection then .error (.backend .read .locked)
  else
    match h.schema.records (s.view h.connection) with
    | .error refusal => .error (.backend .read refusal)
    | .ok records => question records

theorem read_eq {α : Type} (h : Handle) (s : Store)
    (question : List Record → Except TreeError α) (exclusive : Bool) :
    h.read s question exclusive =
      if exclusive && !s.mayWrite h.connection then .error (.backend .read .locked)
      else h.read s question := rfl

theorem read_of_records {α : Type} {h : Handle} {s : Store} {records : List Record}
    (hr : h.schema.records (s.view h.connection) = .ok records)
    (question : List Record → Except TreeError α) : h.read s question = question records := by
  rw [read, hr]
  rfl

def nodes (h : Handle) (s : Store) (exclusive : Bool := false) : Except TreeError (List Node) :=
  h.read s Reading.nodes exclusive

def size (h : Handle) (s : Store) (exclusive : Bool := false) : Except TreeError Nat :=
  h.read s (fun rs => .ok rs.length) exclusive

/-- Generations below the given nodes. Without a level or a node to start from, nothing is
asked of the database. -/
def children (h : Handle) (s : Store) (levels : Nat) (ids : List Int)
    (exclusive : Bool := false) : Except TreeError (List Node) :=
  if levels = 0 || ids.isEmpty then .ok []
  else
    let collation := h.schema.collation (s.view h.connection)
    h.read s (fun records => Reading.children h.schema.order collation records levels ids) exclusive

def depth (_ : Handle) (_ : Store) : Except TreeError Nat := .error (.unsupported .depth)

def edit (h : Handle) (s : Store) (e : Edit) (mishaps : Mishaps := []) : Outcome Answer :=
  s.atomically h.connection h.schema e.operation (e.procedure h.schema) mishaps

def editWithin (h : Handle) (s : Store) (e : Edit) (mishaps : Mishaps := []) : Outcome Answer :=
  s.run h.connection h.schema (e.procedure h.schema) mishaps

end Handle

end NestedSet
