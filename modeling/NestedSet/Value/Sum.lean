import NestedSet.Value.Numeral

/-!
# Adding to a stored value

Nothing stays nothing. A text counts as the number that it begins with, or as
0 where it begins with none, and bytes count as the text that they spell. A
sum of integers that has no place among those of 64 bits becomes a real.
-/

set_option autoImplicit false

namespace NestedSet

def Numeral.leading (cs : List Char) : Value :=
  let beginnings := (List.range (cs.length + 1)).reverse.map fun n => String.ofList (cs.take n)
  (beginnings.findSome? read?).getD (.integer 0)

namespace Value

def addNumber : Value → Int → Value
  | .integer a, n =>
    if IsStorable (a + n) then .integer (a + n)
    else .real ((Double.ofInt a).add (Double.ofInt n))
  | .real r, n => .real (r.add (Double.ofInt n))
  | _, _ => .null

def plus (v : Value) (n : Int) : Value :=
  match v with
  | .text s => (Numeral.leading s.toList).addNumber n
  | .blob bytes => (Numeral.leading (bytes.map fun b => Char.ofNat b.toNat)).addNumber n
  | v => v.addNumber n

theorem plus_integer {a n : Int} (h : IsStorable (a + n)) :
    (Value.integer a).plus n = .integer (a + n) :=
  if_pos h

end Value

end NestedSet
