import NestedSet.Record
import NestedSet.Value.Sum

/-!
# Opening and closing gaps between markers

Room for a subtree is a run of markers that no record holds. Opening it pushes
every later marker up, lefts and rights apart, for they are different columns.
Closing it pulls the records after the gap down as a whole and the right markers
of the records around it alone. A subtree moves by adding one offset to its
records.
-/

set_option autoImplicit false

namespace NestedSet.Revision

def addLeft (s : Schema) (n : Int) : Identifier × (Record → Value) :=
  (s.left, fun r => r.left.value.plus n)

def addRight (s : Schema) (n : Int) : Identifier × (Record → Value) :=
  (s.right, fun r => r.right.value.plus n)

def pushLefts (s : Schema) (pivot width : Int) : Revision Record where
  selects r := r.left.exceeds pivot
  sets := [addLeft s width]

def pushRights (s : Schema) (pivot width : Int) : Revision Record where
  selects r := r.right.exceeds pivot
  sets := [addRight s width]

def pullFollowing (s : Schema) (gap : Bounds) : Revision Record where
  selects r := r.left.exceeds gap.left
  sets := [addLeft s (-gap.span), addRight s (-gap.span)]

def pullEnclosing (s : Schema) (gap : Bounds) : Revision Record where
  selects r := r.left.isBelow gap.left && r.right.exceeds gap.right
  sets := [addRight s (-gap.span)]

def shiftInside (s : Schema) (subtree : Bounds) (offset : Int) : Revision Record where
  selects r := r.left.atLeast subtree.left && r.right.atMost subtree.right
  sets := [addLeft s offset, addRight s offset]

end NestedSet.Revision
