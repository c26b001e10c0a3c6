import Mathlib
import NestedSet.Proofs.Grafting

/-!
# Opening a gap, carrying a subtree, closing a gap

The statements of an edit as functions on ranges. Closing the gap that a
removed subtree leaves undoes the grafting of that subtree. A move opens room
behind its pivot, carries the subtree there and closes the gap behind it; to
the rest this is closing the old gap and opening the new one.
-/

set_option autoImplicit false

namespace NestedSet

def raised (pivot width marker : Int) : Int :=
  if pivot < marker then marker + width else marker

theorem raised_outside (pivot width marker : Int) :
    raised pivot width marker < pivot + 1 ∨ pivot + width < raised pivot width marker := by
  simp only [raised]
  split_ifs <;> omega

theorem raised_le_iff {pivot width a b : Int} (hw : 0 ≤ width) :
    raised pivot width a ≤ raised pivot width b ↔ a ≤ b := by
  simp only [raised]
  split_ifs <;> omega

theorem raised_lt_iff {pivot width a b : Int} (hw : 0 ≤ width) :
    raised pivot width a < raised pivot width b ↔ a < b := by
  rw [← not_le, raised_le_iff hw, not_le]

def lowered (gap : Bounds) (marker : Int) : Int :=
  if gap.right < marker then marker - gap.span else marker

namespace Bounds

def following (gap b : Bounds) : Bounds :=
  if gap.left < b.left then b.shifted (-gap.span) else b

def enclosing (gap b : Bounds) : Bounds :=
  if b.left < gap.left ∧ gap.right < b.right then ⟨b.left, b.right - gap.span⟩ else b

def closed (gap b : Bounds) : Bounds := enclosing gap (following gap b)

def carried (subtree : Bounds) (offset : Int) (b : Bounds) : Bounds :=
  if subtree.left ≤ b.left ∧ b.right ≤ subtree.right then b.shifted offset else b

/-- The second range has neither of its markers in the first. -/
def Apart (range b : Bounds) : Prop :=
  (b.left < range.left ∨ range.right < b.left) ∧ (b.right < range.left ∨ range.right < b.right)

/-- The whole way of a range when the subtree at `node` moves behind `pivot`. -/
def moved (node : Bounds) (pivot : Int) (b : Bounds) : Bounds :=
  let current := node.pushed pivot node.span
  closed current (carried current (relocationOffset pivot current) (b.pushed pivot node.span))

theorem pushed_eq (pivot width : Int) (b : Bounds) :
    b.pushed pivot width = ⟨raised pivot width b.left, raised pivot width b.right⟩ :=
  rfl

theorem closed_of_outside {gap b : Bounds} (hg : gap.left ≤ gap.right) (hb : b.left < b.right)
    (hl : b.left < gap.left ∨ gap.right < b.left)
    (hr : b.right < gap.left ∨ gap.right < b.right) :
    closed gap b = ⟨lowered gap b.left, lowered gap b.right⟩ := by
  unfold closed following lowered
  by_cases hleft : gap.right < b.left
  · have hright : gap.right < b.right := by omega
    rw [if_pos (by omega), if_pos hleft, if_pos hright, enclosing, if_neg]
    · simp only [shifted, Int.sub_eq_add_neg]
    · simp only [shifted, span]
      omega
  · rw [if_neg (by omega), if_neg hleft, enclosing]
    by_cases hright : gap.right < b.right
    · rw [if_pos (by omega), if_pos hright]
    · rw [if_neg (by omega), if_neg hright]

theorem span_gap (left width : Int) : span ⟨left, left + width - 1⟩ = width := by
  simp only [span]
  omega

theorem closed_pushed {left width : Int} {b : Bounds} (hw : 0 < width) (hb : b.left < b.right) :
    closed ⟨left, left + width - 1⟩ (b.pushed (left - 1) width) = b := by
  have hmarker (m : Int) : (raised (left - 1) width m < left ∨
      left + width - 1 < raised (left - 1) width m) ∧
        lowered ⟨left, left + width - 1⟩ (raised (left - 1) width m) = m := by
    simp only [lowered, span_gap, raised]
    split_ifs <;> omega
  have horder : raised (left - 1) width b.left < raised (left - 1) width b.right := by
    simp only [raised]
    split_ifs <;> omega
  rw [pushed_eq, closed_of_outside (by simp only; omega) horder (hmarker _).1 (hmarker _).1,
    (hmarker _).2, (hmarker _).2]

/-- A marker of the rest during a move: it stays clear of the subtree that moves, and ends as if
the subtree had come from nowhere. -/
theorem lowered_raised {left width pivot : Int} (hw : 0 < width) (m : Int) :
    let p := raised (left - 1) width pivot
    let current := Bounds.pushed p width ⟨left, left + width - 1⟩
    let m' := raised p width (raised (left - 1) width m)
    (m' < current.left ∨ current.right < m') ∧ lowered current m' = raised pivot width m := by
  simp only [lowered, pushed, span, raised]
  split_ifs <;> omega

/-- The way of a range of the rest: the gap at the old place closes, one at the new opens. -/
theorem moved_outside {left width pivot : Int} {b : Bounds} (hw : 0 < width)
    (hb : b.left < b.right) :
    moved ⟨left, left + width - 1⟩ (raised (left - 1) width pivot) (b.pushed (left - 1) width) =
      b.pushed pivot width := by
  have hl := @lowered_raised left width pivot hw b.left
  have hr := @lowered_raised left width pivot hw b.right
  have horder : (pushed (raised (left - 1) width pivot) width (b.pushed (left - 1) width)).left <
      (pushed (raised (left - 1) width pivot) width (b.pushed (left - 1) width)).right := by
    simp only [pushed, raised]
    split_ifs <;> omega
  have hcurrent : (pushed (raised (left - 1) width pivot) width ⟨left, left + width - 1⟩).left ≤
      (pushed (raised (left - 1) width pivot) width ⟨left, left + width - 1⟩).right := by
    simp only [pushed]
    split_ifs <;> omega
  simp only [moved]
  rw [span_gap]
  rw [show pushed (raised (left - 1) width pivot) width (b.pushed (left - 1) width) =
    ⟨raised (raised (left - 1) width pivot) width (raised (left - 1) width b.left),
      raised (raised (left - 1) width pivot) width (raised (left - 1) width b.right)⟩ from rfl]
    at horder ⊢
  simp only at hl hr horder ⊢
  rw [carried, if_neg (by simp only; omega), closed_of_outside hcurrent horder hl.1 hr.1, hl.2,
    hr.2, pushed_eq]

theorem moved_inside {left width pivot : Int} {b : Bounds} (hl : left ≤ b.left)
    (hb : b.left < b.right) (hr : b.right ≤ left + width - 1) :
    moved ⟨left, left + width - 1⟩ (raised (left - 1) width pivot) b =
      b.shifted (pivot + 1 - left) := by
  simp only [moved]
  rw [span_gap, raised]
  by_cases hp : left - 1 < pivot
  · rw [if_pos hp, pushed_of_le (b := b) (by omega) (by omega),
      pushed_of_le (by simp only; omega) (by simp only; omega), carried, if_pos ⟨hl, hr⟩]
    unfold closed following
    rw [if_pos (by simp only [shifted, relocationOffset]; omega), enclosing, if_neg]
    · simp only [shifted, relocationOffset, span_gap, Bounds.mk.injEq]
      omega
    · simp only [shifted, relocationOffset, span_gap]
      omega
  · rw [if_neg hp, pushed_of_lt (b := b) (by omega) (by omega),
      pushed_of_lt (by simp only; omega) (by simp only; omega), carried, if_pos]
    · unfold closed following
      rw [if_neg (by simp only [shifted, relocationOffset]; omega), enclosing, if_neg]
      · simp only [shifted, relocationOffset, Bounds.mk.injEq]
        omega
      · simp only [shifted, relocationOffset]
        omega
    · simp only [shifted]
      omega

end Bounds

end NestedSet
