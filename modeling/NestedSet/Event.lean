import NestedSet.Bounds
import NestedSet.TreeError

/-!
# Log events

What an operation reports while it runs, as a value; the log shows it as a
level, a message and labelled details, which are numbers or texts.
-/

set_option autoImplicit false

namespace NestedSet

inductive Operation where
  | add
  | remove
  | move
  | update
  | copy
  deriving DecidableEq, Repr

def Operation.name : Operation → String
  | .add => "add"
  | .remove => "remove"
  | .move => "move"
  | .update => "update"
  | .copy => "copy"

inductive Event where
  | handleReady (table : String)
  | madeRoom (pivot width : Int) (lefts rights : Nat)
  | closedGap (gap : Bounds) (following enclosing : Nat)
  | shiftedSubtree (subtree : Bounds) (offset : Int) (rows : Nat)
  | added (id : Int) (bounds : Bounds) (parent : Option Int)
  | removed (id : Int) (bounds : Bounds) (rows : Nat)
  | updated (id : Int) (fields : Nat)
  | moveToItself (id : Int)
  | moveInside (id target : Int)
  | moved (id parent : Int) (bounds : Bounds)
  | rollingBack (operation : Operation) (step : Step) (error : TreeError)
  | rollbackFailed (operation : Operation) (error : TreeError)
  deriving DecidableEq, Repr

inductive Level where
  | debug
  | warn
  deriving DecidableEq, Repr

inductive Detail where
  | number (n : Int)
  | text (s : String)
  deriving DecidableEq, Repr

namespace Event

def level : Event → Level
  | .rollingBack .. => .warn
  | .rollbackFailed .. => .warn
  | _ => .debug

def message : Event → String
  | .handleReady .. => "tree handle ready"
  | .madeRoom .. => "made room"
  | .closedGap .. => "collapsed gap"
  | .shiftedSubtree .. => "relocated subtree"
  | .added .. => "node added"
  | .removed .. => "subtree removed"
  | .updated .. => "payload updated"
  | .moveToItself .. => "move target is the node itself"
  | .moveInside .. => "move rejected: target is a descendant"
  | .moved .. => "node moved"
  | .rollingBack .. => "rolling back"
  | .rollbackFailed .. => "rollback failed"

def idDetail (id : Int) : Detail := .text (toString id)

def boundsDetail (b : Bounds) : Detail := .text b.text

def parentDetail : Option Int → Detail
  | none => .text "None"
  | some id => .text s!"Some(NodeId({id}))"

def details : Event → List (String × Detail)
  | .handleReady table => [("table", .text table)]
  | .madeRoom pivot width lefts rights =>
    [("prev_visited", .number pivot), ("width", .number width), ("shifted_lefts", .number lefts),
      ("shifted_rights", .number rights)]
  | .closedGap gap following enclosing =>
    [("removed", boundsDetail gap), ("delta", .number gap.span), ("shifted", .number following),
      ("shrunk", .number enclosing)]
  | .shiftedSubtree subtree offset rows =>
    [("subtree", boundsDetail subtree), ("offset", .number offset), ("shifted", .number rows)]
  | .added id bounds parent =>
    [("id", idDetail id), ("bounds", boundsDetail bounds), ("parent", parentDetail parent)]
  | .removed id bounds rows =>
    [("id", idDetail id), ("bounds", boundsDetail bounds), ("deleted", .number rows)]
  | .updated id fields => [("id", idDetail id), ("fields", .number fields)]
  | .moveToItself id => [("id", idDetail id)]
  | .moveInside id target => [("id", idDetail id), ("target", idDetail target)]
  | .moved id parent bounds =>
    [("id", idDetail id), ("new_parent", idDetail parent), ("nodes", .number bounds.size),
      ("to", boundsDetail bounds)]
  | .rollingBack operation step error =>
    [("op", .text operation.name), ("step", .text step.name), ("error", .text error.message)]
  | .rollbackFailed operation error =>
    [("op", .text operation.name), ("error", .text error.message)]

end Event

end NestedSet
