import NestedSet.Session

/-!
# Setting up trials

To see what a tree makes of a given state, rows can be put into its table as
they are, and statements of one kind can be made to fail until further notice.
-/

set_option autoImplicit false

namespace NestedSet.Handle

def plant (h : Handle) (s : Store) (nodes : List Node) : Outcome Unit :=
  s.run h.connection h.schema (nodes.forM fun n => do
    let values ← h.schema.resolve n.payload
    let _ ← Procedure.request (.insert (some n.id) n.bounds n.parent values))

def induce (h : Handle) (s : Store) (kind : FaultKind) (endsTransaction : Bool) : Store :=
  let db := s.view h.connection
  s.replace h.connection (db.addFault ⟨kind, h.schema, endsTransaction⟩)

def relieve (h : Handle) (s : Store) (kindName : String) : Store :=
  s.replace h.connection ((s.view h.connection).removeFault kindName)

def counters (h : Handle) (s : Store) : Except TreeError (List (String × Int)) :=
  match h.schema.ids with
  | .autoIncrement => .ok []
  | .sequence name =>
    match (s.view h.connection).table name with
    | .error refusal => .error (.backend .read refusal)
    | .ok t => .ok ((Sequence.counters t).mergeSort fun a b => decide (a.1 ≤ b.1))

end NestedSet.Handle
