import NestedSet.Bounds

/-!
# Checking a nesting

From the markers and recorded parents of a whole tree the checker lists what
keeps them from being the numbering of one ordered tree. It sorts the nodes by
their markers, sweeps them with a stack of open intervals, and compares each
span with the number of left markers inside it.
-/

set_option autoImplicit false

namespace NestedSet

structure Shape where
  id : Int
  bounds : Bounds
  parent : Option Int
  deriving DecidableEq, Repr

inductive Violation where
  | emptyInterval (id : Int) (bounds : Bounds)
  | partialOverlap (outer inner : Int)
  | wrongParent (id : Int) (recorded enclosing : Option Int)
  | spanMismatch (id : Int) (span size : Int)
  | rootCount (count : Nat)
  | rootNotFirst (id : Int) (left : Int)
  | markersNotContiguous (expected found : Int)
  deriving DecidableEq, Repr

namespace Violation

def parentText : Option Int → String
  | some id => toString id
  | none => "none"

def message : Violation → String
  | .emptyInterval id b => s!"node {id} has left >= right {b.text}"
  | .partialOverlap outer inner => s!"node {inner} partially overlaps node {outer}"
  | .wrongParent id recorded enclosing =>
    s!"node {id} records parent {parentText recorded} but is enclosed by {parentText enclosing}"
  | .spanMismatch id span size =>
    s!"node {id} spans {span} markers but its subtree holds {size} nodes"
  | .rootCount count => s!"expected exactly one root, found {count}"
  | .rootNotFirst id left => s!"root {id} starts at marker {left} instead of 1"
  | .markersNotContiguous expected found =>
    s!"markers not contiguous (expected={expected}, found={found})"

end Violation

namespace Nesting

def precedes (a b : Shape) : Bool :=
  decide (a.bounds.left < b.bounds.left) ||
    (a.bounds.left == b.bounds.left && decide (a.bounds.right ≤ b.bounds.right))

def sorted (nodes : List Shape) : List Shape := nodes.mergeSort precedes

def emptyIntervals (nodes : List Shape) : List Violation :=
  (nodes.filter fun n => decide (n.bounds.right ≤ n.bounds.left)).map
    fun n => .emptyInterval n.id n.bounds

/-- What is wrong between a node and the innermost open interval before it. -/
def enclosureFaults (outer : Option Shape) (node : Shape) : List Violation :=
  (match outer with
    | some o => if o.bounds.contains node.bounds then [] else [.partialOverlap o.id node.id]
    | none => []) ++
  (let enclosing := outer.map (·.id)
    if node.parent = enclosing then [] else [.wrongParent node.id node.parent enclosing])

/-- Visits sorted nodes with the stack of intervals still open, innermost first. -/
def sweep : List Shape → List Shape → List Violation
  | _, [] => []
  | stack, node :: rest =>
    let stillOpen := stack.dropWhile fun top => decide (top.bounds.right < node.bounds.left)
    enclosureFaults stillOpen.head? node ++ sweep (node :: stillOpen) rest

/-- One more than the number of left markers strictly between the node's own two. -/
def population (nodes : List Shape) (b : Bounds) : Nat :=
  let upToLeft := nodes.countP fun n => decide (n.bounds.left ≤ b.left)
  let beforeRight := nodes.countP fun n => decide (n.bounds.left < b.right)
  beforeRight - upToLeft + 1

def spanMismatches (nodes : List Shape) : List Violation :=
  nodes.filterMap fun n =>
    let size : Int := population nodes n.bounds
    if n.bounds.span = size * 2 then none else some (.spanMismatch n.id n.bounds.span size)

def rootFaults (nodes : List Shape) : List Violation :=
  let roots := nodes.filter fun n => n.parent.isNone
  (if roots.length = 1 then [] else [.rootCount roots.length]) ++
  (roots.filter fun n => n.bounds.left != 1).map fun n => .rootNotFirst n.id n.bounds.left

def markers (nodes : List Shape) : List Int :=
  (nodes.flatMap fun n => [n.bounds.left, n.bounds.right]).mergeSort fun a b => decide (a ≤ b)

def firstGap : Int → List Int → List Violation
  | _, [] => []
  | expected, found :: rest =>
    if found = expected then firstGap (expected + 1) rest
    else [.markersNotContiguous expected found]

end Nesting

open Nesting in
def violations (nodes : List Shape) : List Violation :=
  if nodes.isEmpty then []
  else
    let ns := sorted nodes
    emptyIntervals ns ++ sweep [] ns ++ spanMismatches ns ++ rootFaults ns ++
      firstGap 1 (markers ns)

end NestedSet
