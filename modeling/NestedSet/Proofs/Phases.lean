import Mathlib
import NestedSet.Editing

/-!
# The phases of a move

A move looks at its two nodes and decides whether it is possible. It makes room
behind its pivot and looks at both nodes again, for they may have moved. Then
it carries the subtree into the room and closes the gap behind it.
-/

set_option autoImplicit false

namespace NestedSet

namespace Procedure

variable {α β γ : Type}

theorem bind_assoc (p : Procedure α) (f : α → Procedure β) (g : β → Procedure γ) :
    p >>= f >>= g = p >>= fun a => f a >>= g := by
  change (p.bind f).bind g = p.bind fun a => (f a).bind g
  induction p with
  | done answer => cases answer <;> rfl
  | issue q next ih => exact congrArg (issue q) (funext ih)
  | report event next ih => exact congrArg (report event) ih

end Procedure

namespace Editing

open Procedure

def examine (id : Int) (tie : Tie) (targetId : Int) : Procedure (Node × Node × Int) := do
  let target ← element targetId
  let node ← element id
  if node.bounds.contains target.bounds then
    tell (.moveInside id targetId)
    throw (.invalidMove .underDescendant)
  else
    match tie.parent? target with
    | none => throw (.invalidMove .besideRoot)
    | some parent => return (node, target, parent)

/-- Makes room for the subtree and finds the target and the node where they are then. -/
def reopen (node : Node) (tie : Tie) (target : Node) (parent : Int) :
    Procedure (Node × Node) := do
  makeRoom (tie.anchor target.bounds).pivot node.bounds.span
  let _ ← request (.revise (.reparent node.id parent))
  let target ← element target.id
  let current ← element node.id
  return (target, current)

theorem relocate_eq (node : Node) (tie : Tie) (target : Node) (parent : Int) :
    relocate node tie target parent = (do
      let (target, current) ← reopen node tie target parent
      let offset := relocationOffset (tie.anchor target.bounds).pivot current.bounds
      shift current.bounds offset
      collapse current.bounds
      tell (.moved node.id parent (current.bounds.shifted offset))) := by
  unfold relocate reopen
  simp only [bind_assoc]
  rfl

theorem moveTo_of_ne {id targetId : Int} (hne : targetId ≠ id) (tie : Tie) :
    moveTo id tie targetId = (do
      let (node, target, parent) ← examine id tie targetId
      relocate node tie target parent
      return .moved) := by
  unfold moveTo examine
  rw [if_neg hne]
  simp only [bind_assoc]
  refine bind_congr fun target => bind_congr fun node => ?_
  split
  · rfl
  · cases tie.parent? target <;> rfl

theorem moveTo_eq {id targetId : Int} (hne : targetId ≠ id) (tie : Tie) :
    moveTo id tie targetId = (do
      let (node, target, parent) ← examine id tie targetId
      let (target, current) ← reopen node tie target parent
      let offset := relocationOffset (tie.anchor target.bounds).pivot current.bounds
      shift current.bounds offset
      collapse current.bounds
      tell (.moved node.id parent (current.bounds.shifted offset))
      return .moved) := by
  simp only [moveTo_of_ne hne, relocate_eq, bind_assoc]

end Editing

end NestedSet
