import NestedSet.Refusal
import NestedSet.Schema

/-!
# Errors of tree operations

An operation fails for a reason of the tree's own, found before anything is
written, or because the database refused a statement; then the error names the
logical step that the statement belonged to.
-/

set_option autoImplicit false

namespace NestedSet

inductive Step where
  | begin
  | resolve
  | makeRoom
  | allocateId
  | insert
  | deleteSubtree
  | collapse
  | reparent
  | offset
  | updatePayload
  | read
  | install
  | commit
  | rollback
  deriving DecidableEq, Repr

def Step.name : Step → String
  | .begin => "begin"
  | .resolve => "resolve"
  | .makeRoom => "make_room"
  | .allocateId => "allocate_id"
  | .insert => "insert"
  | .deleteSubtree => "delete_subtree"
  | .collapse => "collapse"
  | .reparent => "reparent"
  | .offset => "offset"
  | .updatePayload => "update_payload"
  | .read => "read"
  | .install => "install"
  | .commit => "commit"
  | .rollback => "rollback"

inductive InvalidMove where
  | noParent
  | underDescendant
  | besideRoot
  deriving DecidableEq, Repr

def InvalidMove.message : InvalidMove → String
  | .noParent => "no parent id given"
  | .underDescendant => "can not move an element under one of its children"
  | .besideRoot => "the root cannot have siblings"

inductive InvalidInput where
  | rootExists
  | besideRoot
  | noFields
  deriving DecidableEq, Repr

def InvalidInput.message : InvalidInput → String
  | .rootExists => "tree already has a root"
  | .besideRoot => "the root cannot have siblings"
  | .noFields => "no fields to update"

inductive Unsupported where
  | copy
  | depth
  deriving DecidableEq, Repr

def Unsupported.name : Unsupported → String
  | .copy => "copy"
  | .depth => "depth"

inductive TreeError where
  /-- The place of the database cannot be reached. -/
  | unreachable
  | invalidSchema (e : SchemaError)
  | notFound (id : Int)
  | emptyTree
  | invalidMove (e : InvalidMove)
  | invalidInput (e : InvalidInput)
  | unknownField (name : String)
  | protectedField (name : String)
  | unsupported (e : Unsupported)
  | backend (step : Step) (refusal : Refusal)
  deriving DecidableEq, Repr

namespace TreeError

def message : TreeError → String
  | .unreachable => "io"
  | .invalidSchema e => "schema: " ++ e.message
  | .notFound id => s!"element with id {id} does not exist"
  | .emptyTree => "tree has no root"
  | .invalidMove e => "invalid move: " ++ e.message
  | .invalidInput e => "invalid input: " ++ e.message
  | .unknownField name => s!"unknown payload field: {name}"
  | .protectedField name => s!"field {name} is maintained by the tree and cannot be updated"
  | .unsupported e => s!"{e.name} is not supported"
  | .backend step refusal => s!"sqlite (step={step.name}): {refusal.message}"

def failedStep? : TreeError → Option Step
  | .backend step _ => some step
  | _ => none

def endsTransaction : TreeError → Bool
  | .backend _ refusal => refusal.endsTransaction
  | _ => false

end TreeError

end NestedSet
