/-!
# Marker intervals

A node of a nested-set tree owns the closed marker range from its left to its
right marker; its descendants are the nodes whose range lies strictly inside.
A subtree of n nodes spans 2n markers, and moving it is adding one offset.
-/

set_option autoImplicit false

namespace NestedSet

structure Bounds where
  left : Int
  right : Int
  deriving DecidableEq, Repr

namespace Bounds

def leafAfter (pivot : Int) : Bounds := ⟨pivot + 1, pivot + 2⟩

/-- How many markers lie in the range; a number of 64 bits wherever it is asked for. -/
def span (b : Bounds) : Int := b.right - b.left + 1

def size (b : Bounds) : Int := b.span.tdiv 2

def isLeaf (b : Bounds) : Bool := b.right - b.left == 1

def contains (outer inner : Bounds) : Bool :=
  decide (outer.left < inner.left) && decide (inner.right < outer.right)

def shifted (b : Bounds) (offset : Int) : Bounds := ⟨b.left + offset, b.right + offset⟩

def text (b : Bounds) : String := s!"[{b.left}, {b.right}]"

theorem contains_iff {a b : Bounds} :
    a.contains b = true ↔ a.left < b.left ∧ b.right < a.right := by
  simp [contains]

theorem contains_irrefl (a : Bounds) : a.contains a = false := by
  simp [contains]

theorem contains_trans {a b c : Bounds} (hab : a.contains b = true) (hbc : b.contains c = true) :
    a.contains c = true := by
  rw [contains_iff] at *
  omega

theorem span_shifted (b : Bounds) (offset : Int) : (b.shifted offset).span = b.span := by
  simp only [shifted, span]
  omega

end Bounds

inductive Anchor where
  /-- It becomes the first child of the node with this range. -/
  | parent (bounds : Bounds)
  /-- It directly follows the node with this range among its siblings. -/
  | sibling (bounds : Bounds)
  deriving DecidableEq, Repr

def Anchor.pivot : Anchor → Int
  | .parent b => b.left
  | .sibling b => b.right

def relocationOffset (pivot : Int) (moved : Bounds) : Int := pivot + 1 - moved.left

end NestedSet
