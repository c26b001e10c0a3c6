import Mathlib
import NestedSet.Proofs.Ledger

/-!
# The tree that is meant

The edits on an ordered tree itself, whose nodes carry an id and a payload and
know nothing of markers. What is asked first decides which error is answered
where several are possible.
-/

set_option autoImplicit false

namespace NestedSet

def Item.is (id : Int) (a : Item) : Bool := a.id == id

namespace Forest

def has (f : Forest Item) (id : Int) : Bool := f.labels.any (Item.is id)

def isOutermost (f : Forest Item) (id : Int) : Bool := f.roots.any (Item.is id)

def plant (f : Forest Item) (leaf : Item) : Placement → Except TreeError (Forest Item)
  | .root =>
    match f with
    | nil => .ok (tree leaf nil nil)
    | tree .. => .error (.invalidInput .rootExists)
  | .firstChildOf id =>
    if f.has id then .ok (f.insertBelow (Item.is id) (tree leaf nil nil))
    else .error (.notFound id)
  | .after id =>
    if f.has id then
      if f.isOutermost id then .error (.invalidInput .besideRoot)
      else .ok (f.insertAfter (Item.is id) (tree leaf nil nil))
    else .error (.notFound id)

def cutting (f : Forest Item) (id target : Int) : Except TreeError (Forest Item) :=
  if f.has target then
    match f.treeAt? (Item.is id) with
    | some subtree =>
      if subtree.has target then .error (.invalidMove .underDescendant) else .ok subtree
    | none => .error (.notFound id)
  else .error (.notFound target)

def transplant (f : Forest Item) (id : Int) :
    Placement → Except TreeError (MoveOutcome × Forest Item)
  | .root => .error (.invalidMove .noParent)
  | .firstChildOf target =>
    if target = id then .ok (.alreadyInPlace, f)
    else (f.cutting id target).map fun subtree =>
      (.moved, (f.erase (Item.is id)).insertBelow (Item.is target) subtree)
  | .after target =>
    if target = id then .ok (.alreadyInPlace, f)
    else
      match f.cutting id target with
      | .ok subtree =>
        if f.isOutermost target then .error (.invalidMove .besideRoot)
        else .ok (.moved, (f.erase (Item.is id)).insertAfter (Item.is target) subtree)
      | .error e => .error e

end Forest

namespace Schema

def inOrder (payload : Payload) : Payload := payload.mergeSort fun a b => decide (a.1 ≤ b.1)

def objection? (s : Schema) (payload : Payload) : Option TreeError :=
  (inOrder payload).findSome? fun (name, _) =>
    if name ∈ structuralFields then some (.protectedField name)
    else if (s.field? name).isNone then some (.unknownField name)
    else none

def fieldValues (s : Schema) (payload : Payload) : List (Field × Value) :=
  (inOrder payload).filterMap fun (name, v) => (s.field? name).map fun f => (f, v)

end Schema

/-- What an edit answers and makes of a tree, if a new node is given the id `new`. -/
def Edit.onForest (s : Schema) (new : Int) (f : Forest Item) :
    Edit → Except TreeError (Answer × Forest Item)
  | .add payload placement =>
    match s.objection? payload with
    | some e => .error e
    | none => (f.plant ⟨new, s.newPayload (s.fieldValues payload)⟩ placement).map fun g =>
      (.created new, g)
  | .remove id =>
    match f.treeAt? (Item.is id) with
    | some subtree => .ok (.deleted subtree.size, f.erase (Item.is id))
    | none => .error (.notFound id)
  | .move id placement => (f.transplant id placement).map fun (outcome, g) => (.placed outcome, g)
  | .update id payload =>
    if payload.isEmpty then .error (.invalidInput .noFields)
    else
      match s.objection? payload with
      | some e => .error e
      | none =>
        if f.has id then
          .ok (.updated, f.map fun a =>
            if a.is id then ⟨a.id, s.overwrite (s.fieldValues payload) a.payload⟩ else a)
        else .error (.notFound id)
  | .copy _ _ => .error (.unsupported .copy)

end NestedSet
