import Mathlib
import NestedSet.Proofs.Ancestry

/-!
# Generations

The nodes below a list of ids are read level by level: one query asks for the
children of the nodes in front, and its answer is the next front. So the
answer to the k-th query are the nodes whose k-th ancestor by the recorded
parents is in the list. Parents begin before their children, so the fronts run
out after as many levels as the tree has, whatever number was asked for.
-/

set_option autoImplicit false

namespace NestedSet

/-! ### The order of values -/

namespace Value

def chars : Value → String
  | .text s => s
  | _ => ""

def bytes : Value → List UInt8
  | .blob bs => bs
  | _ => []

theorem bytesLe_trans {a b c : List UInt8} (hab : bytesLe a b = true) (hbc : bytesLe b c = true) :
    bytesLe a c = true := by
  induction a generalizing b c with
  | nil => rfl
  | cons x xs ih =>
    match b, c with
    | [], _ => cases hab
    | y :: ys, [] => cases hbc
    | y :: ys, z :: zs =>
      simp only [bytesLe, Bool.or_eq_true, Bool.and_eq_true, decide_eq_true_eq, beq_iff_eq] at *
      rcases hab with hxy | ⟨rfl, hab⟩
      · rcases hbc with hyz | ⟨rfl, -⟩
        · exact .inl (UInt8.lt_trans hxy hyz)
        · exact .inl hxy
      · exact hbc.imp_right fun ⟨hxz, hbc⟩ => ⟨hxz, ih hab hbc⟩

theorem size_integer_le {a b : Int} : (integer a).size ≤ (integer b).size ↔ a ≤ b := by
  have hunit : ∀ n, 0 < Nat.pow 2 n := Nat.two_pow_pos
  exact Int.mul_le_mul_right (Int.natCast_pos.2 (hunit _))

theorem size_null : null.size = 0 := rfl

theorem size_text (s : String) : (text s).size = 0 := rfl

theorem size_blob (bs : List UInt8) : (blob bs).size = 0 := rfl

theorem le_iff {a b : Value} :
    a.le b = true ↔ a.rank < b.rank ∨
      (a.rank = b.rank ∧ a.size ≤ b.size ∧ a.chars ≤ b.chars ∧ bytesLe a.bytes b.bytes = true) := by
  cases a <;> cases b <;>
    simp [le, rank, chars, bytes, bytesLe, size_null, size_text, size_blob, size_integer_le]

theorem le_trans {a b c : Value} (hab : a.le b = true) (hbc : b.le c = true) : a.le c = true := by
  rw [le_iff] at *
  rcases hab with hab | ⟨hrank, hsize, hchars, hbytes⟩
  · rcases hbc with hbc | ⟨hrank', -⟩
    · exact .inl (by omega)
    · exact .inl (by omega)
  · rcases hbc with hbc | ⟨hrank', hsize', hchars', hbytes'⟩
    · exact .inl (by omega)
    · exact .inr ⟨hrank.trans hrank', hsize.trans hsize', hchars.trans hchars',
        bytesLe_trans hbytes hbytes'⟩

end Value

/-! ### The order of a generation -/

namespace Node

variable {order : OrderKey} {collation : Collation} {a b c : Node}

def orderValue (order : OrderKey) (n : Node) : Value :=
  match order with
  | .left => .integer n.left
  | .right => .integer n.right
  | .id => .integer n.id
  | .parent => (n.parent.map Value.integer).getD .null
  | .field f => (n.payload.lookup f.name).getD .null

/-- What that value is compared as. -/
def orderImage (order : OrderKey) (collation : Collation) (n : Node) : Value :=
  collation.image (n.orderValue order)

def listedBefore (order : OrderKey) (collation : Collation) (a b : Node) : Bool :=
  let x := a.orderImage order collation
  let y := b.orderImage order collation
  if x.same y then decide (a.left ≤ b.left) else x.le y

end Node

section Sorted

variable {order : OrderKey} {collation : Collation} {l nodes : List Node}

end Sorted

section NextGeneration

variable {order : OrderKey} {collation : Collation} {nodes : List Node} {ids : List Int} {n : Node}

end NextGeneration

/-! ### Reading one generation -/

namespace Reading

variable {records : List Record} {nodes : List Node} {order : OrderKey} {collation : Collation}

end Reading

section Fronts

variable {order : OrderKey} {collation : Collation} {nodes : List Node} {ids : List Int}
  {k levels : Nat}

end Fronts

/-! ### Ancestors -/

section Ancestors

variable {nodes : List Node} {order : OrderKey} {collation : Collation} {ids : List Int}
  {n : Node} {k : Nat}

end Ancestors

/-! ### The height of a tree -/

namespace Forest

variable {f : Forest Item} {n : Node} {k : Nat}

end Forest

/-! ### What a handle reads -/

end NestedSet
