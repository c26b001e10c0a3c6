import NestedSet.Double

/-!
# Decimal digits of a double

A positive double is the fraction `magnitude / 2 ^ 1074`. All digits are found
by exact arithmetic on that fraction: the fewest that still read back as the
same double, or a fixed number of them. A style then lays them out.
-/

set_option autoImplicit false

namespace NestedSet.Double

structure Digits where
  digits : List Char
  point : Int
  deriving DecidableEq, Repr

structure Style where
  /-- The value is written without an exponent when its point lies above this place … -/
  above : Int
  /-- … and at most here. -/
  upTo : Int
  /-- Whether a lone digit before an exponent is followed by a point and a zero. -/
  pointAlways : Bool
  /-- Whether a positive exponent has a sign. -/
  plus : Bool
  /-- The least number of digits of an exponent. -/
  exponentWidth : Nat

def unit : Nat := Nat.pow 2 leastExponent

def pointOf (num den : Nat) : Int :=
  let shift : Nat := 400
  ((Nat.toDigits 10 (num * Nat.pow 10 shift / den)).length : Int) - shift

def scaledBy (num den : Nat) (shift : Int) : Nat × Nat :=
  if shift < 0 then (num, den * Nat.pow 10 shift.natAbs) else (num * Nat.pow 10 shift.natAbs, den)

/-- Whether the double with these parts is the one nearest to `c * 10 ^ (-shift)`. All bounds
are counted in quarters of the double's own unit. -/
def readsBack (parts : Nat × Nat) (shift : Int) (c : Nat) : Bool :=
  let (m, e) := parts
  let below := if m = Nat.pow 2 52 ∧ e ≠ 0 then 4 * m - 1 else 4 * m - 2
  let above := 4 * m + 2
  let (low, den) := scaledBy (below * Nat.pow 2 e) (4 * unit) shift
  let (high, _) := scaledBy (above * Nat.pow 2 e) (4 * unit) shift
  if m % 2 = 0 then decide (low ≤ c * den) && decide (c * den ≤ high)
  else decide (low < c * den) && decide (c * den < high)

/-- The neighbour of the value with `count` digits that reads back, the nearer one first and
the even one of two equally near. -/
def candidate? (r : Double) (point : Int) (count : Nat) : Option Nat :=
  let shift := (count : Int) - point
  let (num, den) := scaledBy r.magnitude unit shift
  let floor := num / den
  let double := 2 * (num % den)
  let down := double < den || (double == den && floor % 2 == 0)
  let ordered := if down then [floor, floor + 1] else [floor + 1, floor]
  ordered.find? (readsBack r.parts shift)

def stripZeros (cs : List Char) : List Char := (cs.reverse.dropWhile (· == '0')).reverse

def digitsOf (c count : Nat) (point : Int) : Digits :=
  let cs := Nat.toDigits 10 c
  ⟨stripZeros cs, point + (cs.length : Int) - count⟩

def shortest (r : Double) : Digits :=
  let point := pointOf r.magnitude unit
  match (List.range 18).findSome? fun n => (candidate? r point n).map fun c => (c, n) with
  | some (c, n) => digitsOf c n point
  | none => ⟨[], 0⟩

def rounded (r : Double) (count : Nat) : Digits :=
  let point := pointOf r.magnitude unit
  let (num, den) := scaledBy r.magnitude unit ((count : Int) - point)
  digitsOf ((2 * num + den) / (2 * den)) count point

def zeros (n : Int) : List Char := List.replicate n.toNat '0'

def exponentText (s : Style) (e : Int) : List Char :=
  let cs := Nat.toDigits 10 e.natAbs
  let sign := if e < 0 then ['-'] else if s.plus then ['+'] else []
  'e' :: sign ++ zeros (s.exponentWidth - cs.length) ++ cs

def Style.layout (s : Style) (d : Digits) : List Char :=
  if s.above < d.point ∧ d.point ≤ s.upTo then
    if d.point ≤ 0 then ['0', '.'] ++ zeros (-d.point) ++ d.digits
    else
      let whole := d.digits.take d.point.toNat
      let fraction := d.digits.drop d.point.toNat
      whole ++ zeros (d.point - whole.length) ++ ['.'] ++
        (if fraction.isEmpty then ['0'] else fraction)
  else
    let fraction := d.digits.drop 1
    d.digits.take 1 ++
      (if fraction.isEmpty then (if s.pointAlways then ['.', '0'] else []) else '.' :: fraction) ++
      exponentText s (d.point - 1)

end NestedSet.Double
