import NestedSet.Refusal
import NestedSet.Value.Affinity

/-!
# Cells

A cell is a value together with the column that it was found in. The affinity
of the column decides how the cell compares with a value given from outside.
No comparison but `is` holds of an empty cell.
-/

set_option autoImplicit false

namespace NestedSet

structure Cell where
  /-- What the column is called in an answer. -/
  column : String
  affinity : Affinity
  value : Value
  deriving DecidableEq, Repr

namespace Cell

/-- A given value as the cell compares with it: with a text in a text column the text of a
number, with anything in a column of numbers the number of a text. -/
def form (c : Cell) (v : Value) : Value :=
  match c.affinity, c.value with
  | .text, .text _ => Affinity.toText v
  | .text, _ => v
  | .none, _ => v
  | .numeric, _ => Affinity.toNumber v
  | .real, _ => Affinity.toNumber v

def equals (c : Cell) (v : Value) : Bool := c.value.equals (c.form v)

def is (c : Cell) (v : Value) : Bool := c.value.same (c.form v)

def exceeds (c : Cell) (n : Int) : Bool := (c.form (.integer n)).below c.value

def isBelow (c : Cell) (n : Int) : Bool := c.value.below (c.form (.integer n))

def atLeast (c : Cell) (n : Int) : Bool := (c.form (.integer n)).atMost c.value

def atMost (c : Cell) (n : Int) : Bool := c.value.atMost (c.form (.integer n))

def integer (c : Cell) (place : Nat) : Except Refusal Int :=
  match c.value with
  | .integer n => .ok n
  | v => .error (.wrongKind v place c.column)

def integer? (c : Cell) (place : Nat) : Except Refusal (Option Int) :=
  match c.value with
  | .null => .ok none
  | .integer n => .ok (some n)
  | v => .error (.wrongKind v place c.column)

theorem form_of_integer {c : Cell} {a : Int} (h : c.value = .integer a) (n : Int) :
    c.form (.integer n) = .integer n := by
  unfold form
  rw [h]
  cases c.affinity <;> rfl

theorem equals_of_integer {c : Cell} {a : Int} (h : c.value = .integer a) (n : Int) :
    c.equals (.integer n) = decide (a = n) := by
  rw [equals, form_of_integer h, h, Value.equals_integer]

theorem exceeds_of_integer {c : Cell} {a : Int} (h : c.value = .integer a) (n : Int) :
    c.exceeds n = decide (n < a) := by
  rw [exceeds, form_of_integer h, h, Value.below_integer]

theorem isBelow_of_integer {c : Cell} {a : Int} (h : c.value = .integer a) (n : Int) :
    c.isBelow n = decide (a < n) := by
  rw [isBelow, form_of_integer h, h, Value.below_integer]

theorem atLeast_of_integer {c : Cell} {a : Int} (h : c.value = .integer a) (n : Int) :
    c.atLeast n = decide (n ≤ a) := by
  rw [atLeast, form_of_integer h, h, Value.atMost_integer]

theorem atMost_of_integer {c : Cell} {a : Int} (h : c.value = .integer a) (n : Int) :
    c.atMost n = decide (a ≤ n) := by
  rw [atMost, form_of_integer h, h, Value.atMost_integer]

theorem integer_eq_ok_iff (c : Cell) (place : Nat) {a : Int} :
    c.integer place = .ok a ↔ c.value = .integer a := by
  cases h : c.value <;> simp [integer, h]

theorem integer?_eq_ok_iff (c : Cell) (place : Nat) {a : Option Int} :
    c.integer? place = .ok a ↔ c.value = (a.map Value.integer).getD .null := by
  cases h : c.value <;> cases a <;> simp [integer?, h]

theorem is_of_integer? {c : Cell} {a : Option Int}
    (h : c.value = (a.map Value.integer).getD .null) (b : Option Int) :
    c.is ((b.map Value.integer).getD .null) = decide (a = b) := by
  have hform : c.form ((b.map Value.integer).getD .null) = (b.map Value.integer).getD .null := by
    unfold form
    rw [h]
    cases c.affinity <;> cases a <;> cases b <;> rfl
  rw [is, hform, h]
  cases a with
  | none => cases b <;> rfl
  | some a =>
    cases b with
    | none => rfl
    | some b => simp [Value.same_integer]

end Cell

end NestedSet
