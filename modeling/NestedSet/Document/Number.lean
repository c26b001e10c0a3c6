import NestedSet.Document

/-!
# Numbers in JSON

A number is read in two steps: its lexeme by the grammar, then its value. The
value of a real takes the leading digits that fit 64 bits and multiplies or
divides them by a power of ten once, so its last bit may differ from that of
the nearest double.
-/

set_option autoImplicit false

namespace NestedSet.Document

structure Lexeme where
  negative : Bool
  whole : List Char
  /-- The digits after the point, if there is a point. -/
  fraction : Option (List Char)
  /-- The exponent, if there is one. -/
  exponent : Option Int
  deriving DecidableEq, Repr

def isDigit (c : Char) : Bool := decide ('0' ≤ c) && decide (c ≤ '9')

def digit (c : Char) : Nat := c.toNat - '0'.toNat

def natural (cs : List Char) : Nat := cs.foldl (fun n c => 10 * n + digit c) 0

def digits? (cs : List Char) : Option (List Char × List Char) :=
  match cs.takeWhile isDigit with
  | [] => none
  | ds => some (ds, cs.dropWhile isDigit)

def whole? (cs : List Char) : Option (List Char × List Char) :=
  match digits? cs with
  | some ('0' :: _ :: _, _) => none
  | r => r

def fraction? : List Char → Option (Option (List Char) × List Char)
  | '.' :: cs => (digits? cs).map fun (ds, rest) => (some ds, rest)
  | cs => some (none, cs)

def exponentDigits? (sign : Int) (cs : List Char) : Option (Option Int × List Char) :=
  (digits? cs).map fun (ds, rest) => (some (sign * natural ds), rest)

def exponentSign? : List Char → Option (Option Int × List Char)
  | '-' :: cs => exponentDigits? (-1) cs
  | '+' :: cs => exponentDigits? 1 cs
  | cs => exponentDigits? 1 cs

def exponent? : List Char → Option (Option Int × List Char)
  | 'e' :: cs => exponentSign? cs
  | 'E' :: cs => exponentSign? cs
  | cs => some (none, cs)

def unsigned? (negative : Bool) (cs : List Char) : Option (Lexeme × List Char) := do
  let (whole, cs) ← whole? cs
  let (fraction, cs) ← fraction? cs
  let (exponent, cs) ← exponent? cs
  return (⟨negative, whole, fraction, exponent⟩, cs)

def lexeme? : List Char → Option (Lexeme × List Char)
  | '-' :: cs => unsigned? true cs
  | cs => unsigned? false cs

/-- Leading digits collected into a number that fits 64 bits, and how many were left out. -/
structure Collected where
  significand : Nat
  full : Bool
  omitted : Nat

def Collected.add (c : Collected) (ch : Char) : Collected :=
  let next := 10 * c.significand + digit ch
  if c.full || decide (Nat.pow 2 64 ≤ next) then { c with full := true, omitted := c.omitted + 1 }
  else { c with significand := next }

/-- The significand of a lexeme and its power of ten. A point gives the digits after it a
second chance to fit. -/
def Lexeme.scientific (l : Lexeme) : Nat × Int :=
  let w := l.whole.foldl Collected.add ⟨0, false, 0⟩
  let fraction := l.fraction.getD []
  let f := fraction.foldl Collected.add ⟨w.significand, false, 0⟩
  (f.significand, (w.omitted : Int) - (fraction.length - f.omitted : Nat) + l.exponent.getD 0)

/-- The largest power of ten that one multiplication or division may use. -/
def powerLimit : Nat := 308

/-- Divides by as many powers of ten as it takes; after a few full ones nothing is left. -/
def divideDown : Nat → Float → Nat → Float
  | 0, f, _ => f
  | rounds + 1, f, e =>
    if e ≤ powerLimit then f / Float.ofScientific 1 false e
    else divideDown rounds (f / Float.ofScientific 1 false powerLimit) (e - powerLimit)

def realValue? (negative : Bool) (significand : Nat) (exponent : Int) : Option Double :=
  let f := Float.ofScientific significand false 0
  let signed (f : Float) : Double := Double.ofFloat (if negative then -f else f)
  if significand = 0 then some (signed 0)
  else if exponent < 0 then some (signed (divideDown 4 f exponent.natAbs))
  else if powerLimit < exponent.natAbs then none
  else
    let product := f * Float.ofScientific 1 false exponent.natAbs
    if product.isInf then none else some (signed product)

def Lexeme.integer? (l : Lexeme) : Option Int :=
  match l.fraction, l.exponent with
  | none, none =>
    let n := natural l.whole
    if l.negative then (if 0 < n ∧ n ≤ Nat.pow 2 63 then some (-(n : Int)) else none)
    else if n < Nat.pow 2 64 then some n else none
  | _, _ => none

def Lexeme.value? (l : Lexeme) : Option Document :=
  match l.integer? with
  | some n => some (.integer n)
  | none => (realValue? l.negative l.scientific.1 l.scientific.2).map .real

end NestedSet.Document
