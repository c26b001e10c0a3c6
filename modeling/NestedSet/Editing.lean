import NestedSet.Procedure

/-!
# Editing a tree

The edits of a tree as procedures: adding a leaf, removing a subtree, moving one,
and overwriting payload. Each looks up what it needs and decides whether the
edit is possible before it writes anything.
-/

set_option autoImplicit false

namespace NestedSet

namespace Schema

def resolve (s : Schema) (payload : Payload) : Except TreeError (List (Field × Value)) :=
  (payload.mergeSort fun a b => decide (a.1 ≤ b.1)).mapM fun (name, value) =>
    if name ∈ structuralFields then .error (.protectedField name)
    else
      match s.field? name with
      | some f => .ok (f, value)
      | none => .error (.unknownField name)

end Schema

namespace Editing

open Procedure

def element (id : Int) : Procedure Node := do
  match ← request (.find id) with
  | some n => return n
  | none => throw (.notFound id)

def makeRoom (pivot width : Int) : Procedure Unit := do
  let lefts ← request (.revise (.pushLefts pivot width))
  let rights ← request (.revise (.pushRights pivot width))
  tell (.madeRoom pivot width lefts rights)

def collapse (gap : Bounds) : Procedure Unit := do
  let following ← request (.revise (.pullFollowing gap))
  let enclosing ← request (.revise (.pullEnclosing gap))
  tell (.closedGap gap following enclosing)

def shift (subtree : Bounds) (offset : Int) : Procedure Unit := do
  let rows ← request (.revise (.shiftInside subtree offset))
  tell (.shiftedSubtree subtree offset rows)

/-- The id drawn last from a sequence, which begins after the ids already in the table. -/
def lastDrawn (sequence : Identifier) : Procedure Int := do
  match ← request (.counter sequence) with
  | some value => return value
  | none => request .largestId

def drawId : IdSource Identifier → Procedure (Option Int)
  | .autoIncrement => return none
  | .sequence sequence => do
    let last ← lastDrawn sequence
    request (.setCounter sequence (last + 1))
    return some (last + 1)

/-- The parent of a new node and the marker that it follows. -/
def site : Placement → Procedure (Option Int × Int)
  | .root => do
    let nodes ← request .count
    if nodes = 0 then return (none, 0) else throw (.invalidInput .rootExists)
  | .firstChildOf id => do
    let parent ← element id
    return (some parent.id, (Anchor.parent parent.bounds).pivot)
  | .after id => do
    let sibling ← element id
    match sibling.parent with
    | none => throw (.invalidInput .besideRoot)
    | some parent => return (some parent, (Anchor.sibling sibling.bounds).pivot)

def makeLeafRoom (parent : Option Int) (pivot : Int) : Procedure Unit :=
  if parent.isSome then makeRoom pivot 2 else pure ()

def add (s : Schema) (payload : Payload) (placement : Placement) : Procedure Int := do
  let values ← s.resolve payload
  let (parent, pivot) ← site placement
  makeLeafRoom parent pivot
  let id ← drawId s.ids
  let bounds := Bounds.leafAfter pivot
  let id ← request (.insert id bounds parent values)
  tell (.added id bounds parent)
  return id

def remove (id : Int) : Procedure Nat := do
  let node ← element id
  let rows ← request (.delete node.bounds)
  collapse node.bounds
  tell (.removed id node.bounds rows)
  return rows

def update (s : Schema) (id : Int) (payload : Payload) : Procedure Unit :=
  if payload.isEmpty then throw (.invalidInput .noFields)
  else do
    let values ← s.resolve payload
    let rows ← request (.revise (.payload id values))
    if rows = 0 then throw (.notFound id) else tell (.updated id payload.length)

inductive Tie where
  | firstChild
  | nextSibling
  deriving DecidableEq, Repr

def Tie.anchor : Tie → Bounds → Anchor
  | .firstChild => .parent
  | .nextSibling => .sibling

/-- The parent that the tie gives, unless the target is a root that must stay alone. -/
def Tie.parent? : Tie → Node → Option Int
  | .firstChild, target => some target.id
  | .nextSibling, target => target.parent

/-- Moves a subtree whose move has been found possible. The pivot lies outside the subtree, so
making room shifts the subtree as one block or not at all; its new bounds are looked up. -/
def relocate (node : Node) (tie : Tie) (target : Node) (parent : Int) : Procedure Unit := do
  makeRoom (tie.anchor target.bounds).pivot node.bounds.span
  let _ ← request (.revise (.reparent node.id parent))
  let target ← element target.id
  let current ← element node.id
  let offset := relocationOffset (tie.anchor target.bounds).pivot current.bounds
  shift current.bounds offset
  collapse current.bounds
  tell (.moved node.id parent (current.bounds.shifted offset))

def moveTo (id : Int) (tie : Tie) (targetId : Int) : Procedure MoveOutcome :=
  if targetId = id then do
    tell (.moveToItself id)
    return .alreadyInPlace
  else do
    let target ← element targetId
    let node ← element id
    if node.bounds.contains target.bounds then
      tell (.moveInside id targetId)
      throw (.invalidMove .underDescendant)
    else
      match tie.parent? target with
      | none => throw (.invalidMove .besideRoot)
      | some parent =>
        relocate node tie target parent
        return .moved

def move (id : Int) : Placement → Procedure MoveOutcome
  | .root => throw (.invalidMove .noParent)
  | .firstChildOf target => moveTo id .firstChild target
  | .after target => moveTo id .nextSibling target

def copy (_ : Int) (_ : Placement) : Procedure Int := throw (.unsupported .copy)

end Editing

inductive Edit where
  | add (payload : Payload) (placement : Placement)
  | remove (id : Int)
  | move (id : Int) (placement : Placement)
  | update (id : Int) (payload : Payload)
  | copy (id : Int) (placement : Placement)
  deriving DecidableEq, Repr

inductive Answer where
  | created (id : Int)
  | deleted (rows : Nat)
  | placed (outcome : MoveOutcome)
  | updated
  deriving DecidableEq, Repr

namespace Edit

def operation : Edit → Operation
  | .add _ _ => .add
  | .remove _ => .remove
  | .move _ _ => .move
  | .update _ _ => .update
  | .copy _ _ => .copy

def procedure (s : Schema) : Edit → Procedure Answer
  | .add payload placement => .created <$> Editing.add s payload placement
  | .remove id => .deleted <$> Editing.remove id
  | .move id placement => .placed <$> Editing.move id placement
  | .update id payload => (fun _ => .updated) <$> Editing.update s id payload
  | .copy id placement => .created <$> Editing.copy id placement

end Edit

end NestedSet
