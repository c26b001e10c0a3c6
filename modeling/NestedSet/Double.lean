/-!
# Doubles by their bits

A real number is a double, kept as its 64 bits so that two of them can be told
apart and compared without arithmetic that rounds. `scaled` gives its value
exactly, counted in units of the least positive double; an infinity counts as
the power of two that follows the largest one.
-/

set_option autoImplicit false

namespace NestedSet

structure Double where
  bits : UInt64
  deriving DecidableEq, Repr

namespace Double

def isNegative (r : Double) : Bool := decide (Nat.pow 2 63 ≤ r.bits.toNat)

def exponentField (r : Double) : Nat := r.bits.toNat / Nat.pow 2 52 % Nat.pow 2 11

def fractionField (r : Double) : Nat := r.bits.toNat % Nat.pow 2 52

def isNaN (r : Double) : Bool := r.exponentField == Nat.pow 2 11 - 1 && r.fractionField != 0

def isInfinite (r : Double) : Bool := r.exponentField == Nat.pow 2 11 - 1 && r.fractionField == 0

/-- The significand and the exponent of its unit, counted from the least unit. -/
def parts (r : Double) : Nat × Nat :=
  if r.exponentField = 0 then (r.fractionField, 0)
  else (Nat.pow 2 52 + r.fractionField, r.exponentField - 1)

def leastExponent : Nat := 1074

def magnitude (r : Double) : Nat := r.parts.1 * Nat.pow 2 r.parts.2

def scaled (r : Double) : Int := if r.isNegative then -(r.magnitude : Int) else r.magnitude

def toInt? (r : Double) : Option Int :=
  if r.magnitude % Nat.pow 2 leastExponent = 0 then
    some (r.scaled.tdiv (Nat.pow 2 leastExponent))
  else none

def ofFloat (f : Float) : Double := ⟨f.toBits⟩

def nearest (m : Nat) : Nat :=
  let e := m.log2 - 52
  let (q, rest) := (m / Nat.pow 2 e, m % Nat.pow 2 e)
  let up := decide (Nat.pow 2 e < 2 * rest) || (decide (Nat.pow 2 e = 2 * rest) && q % 2 == 1)
  -- a significand that is rounded up to the next power of two raises the exponent by itself
  min (e * Nat.pow 2 52 + q + up.toNat) ((Nat.pow 2 11 - 1) * Nat.pow 2 52)

def ofScaled (n : Int) : Double :=
  ⟨UInt64.ofNat (nearest n.natAbs + if n < 0 then Nat.pow 2 63 else 0)⟩

def ofInt (n : Int) : Double := ofScaled (n * Nat.pow 2 leastExponent)

def ofDecimal (negative : Bool) (digits : Nat) (exponent : Int) : Double :=
  let f := Float.ofScientific digits (decide (exponent < 0)) exponent.natAbs
  ofFloat (if negative then -f else f)

def undefined : Double :=
  ⟨UInt64.ofNat ((Nat.pow 2 12 - 1) * Nat.pow 2 52 + Nat.pow 2 51)⟩

def add (a b : Double) : Double :=
  if a.isNaN then a
  else if b.isNaN then b
  else if a.isInfinite && b.isInfinite && a.isNegative != b.isNegative then undefined
  else if a.isInfinite then a
  else if b.isInfinite then b
  else if a = b && a.magnitude = 0 then a
  else ofScaled (a.scaled + b.scaled)

end Double

end NestedSet
