import NestedSet.Mapping
import NestedSet.Double

/-!
# Stored values

A cell holds nothing, a number, a text or bytes. Values of all kinds are in one
order: nothing first, then numbers by size whatever their kind, then texts by
code points, then bytes.
-/

set_option autoImplicit false

namespace NestedSet

/-- Whether an integer is one of 64 bits. -/
def IsStorable (n : Int) : Prop := -(Nat.pow 2 63 : Int) ≤ n ∧ n < Nat.pow 2 63

instance (n : Int) : Decidable (IsStorable n) := inferInstanceAs (Decidable (_ ∧ _))

inductive Value where
  | null
  | integer (n : Int)
  | real (r : Double)
  | text (s : String)
  | blob (bytes : List UInt8)
  deriving DecidableEq, Repr

namespace Value

def rank : Value → Nat
  | .null => 0
  | .integer _ => 1
  | .real _ => 1
  | .text _ => 2
  | .blob _ => 3

def size : Value → Int
  | .integer n => n * Nat.pow 2 Double.leastExponent
  | .real r => r.scaled
  | _ => 0

def kindName : Value → String
  | .null => "Null"
  | .integer _ => "Integer"
  | .real _ => "Real"
  | .text _ => "Text"
  | .blob _ => "Blob"

def bytesLe : List UInt8 → List UInt8 → Bool
  | [], _ => true
  | _ :: _, [] => false
  | a :: as, b :: bs => decide (a < b) || (a == b && bytesLe as bs)

def le : Value → Value → Bool
  | .integer a, .integer b => decide (a ≤ b)
  | .text a, .text b => decide (a ≤ b)
  | .blob a, .blob b => bytesLe a b
  | a, b => decide (a.rank < b.rank) || (a.rank == b.rank && decide (a.size ≤ b.size))

def same (a b : Value) : Bool := le a b && le b a

/-! Nothing is neither equal to, nor below, nor at most anything. -/

def equals (a b : Value) : Bool := a != .null && b != .null && a.same b

def below (a b : Value) : Bool := a != .null && b != .null && !b.le a

def atMost (a b : Value) : Bool := a != .null && b != .null && a.le b

def max (a b : Value) : Value := if a.le b then b else a

/-- What is written for a bound value: a NaN counts as nothing. -/
def bound : Value → Value
  | .real r => if r.isNaN then .null else .real r
  | v => v

theorem le_integer (a b : Int) : (Value.integer a).le (.integer b) = decide (a ≤ b) := rfl

theorem same_integer (a b : Int) : (Value.integer a).same (.integer b) = decide (a = b) := by
  simp only [same, le_integer, ← Bool.decide_and, decide_eq_decide]
  omega

theorem equals_integer (a b : Int) : (Value.integer a).equals (.integer b) = decide (a = b) := by
  simp [equals, same_integer]

theorem below_integer (a b : Int) : (Value.integer a).below (.integer b) = decide (a < b) := by
  simp only [below, le_integer, ← decide_not, Int.not_le]
  rfl

theorem atMost_integer (a b : Int) : (Value.integer a).atMost (.integer b) = decide (a ≤ b) := by
  simp [atMost, le_integer]

end Value

def PartitionKey.value : PartitionKey → Value
  | .integer n => .integer n
  | .text s => .text s

end NestedSet
