import NestedSet.Value

/-!
# Texts that are numbers

A text is a number if it is one from end to end, apart from white space around
it: a sign, digits with at most one point among them, an exponent. Without
point and exponent it is an integer if it fits 64 bits with its sign.
-/

set_option autoImplicit false

namespace NestedSet.Numeral

def isSpace (c : Char) : Bool := c == ' ' || (decide ('\t' ≤ c) && decide (c ≤ '\r'))

def isDigit (c : Char) : Bool := decide ('0' ≤ c) && decide (c ≤ '9')

def natural (cs : List Char) : Nat := cs.foldl (fun n c => 10 * n + (c.toNat - '0'.toNat)) 0

def sign : List Char → Bool × List Char
  | '-' :: cs => (true, cs)
  | '+' :: cs => (false, cs)
  | cs => (false, cs)

def fraction : List Char → Option (List Char) × List Char
  | '.' :: cs => (some (cs.takeWhile isDigit), cs.dropWhile isDigit)
  | cs => (none, cs)

def exponentDigits? (cs : List Char) : Option (Int × List Char) :=
  let (negative, cs) := sign cs
  match cs.takeWhile isDigit with
  | [] => none
  | ds =>
    let n : Int := min (natural ds) 10000
    some (if negative then -n else n, cs.dropWhile isDigit)

def exponent? : List Char → Option (Option Int × List Char)
  | 'e' :: cs => (exponentDigits? cs).map fun (e, rest) => (some e, rest)
  | 'E' :: cs => (exponentDigits? cs).map fun (e, rest) => (some e, rest)
  | cs => some (none, cs)

def fitsInteger (n : Int) : Bool := decide (-(Nat.pow 2 63 : Int) ≤ n) && decide (n < Nat.pow 2 63)

def value (negative : Bool) (whole : List Char) (fraction : Option (List Char))
    (exponent : Option Int) : Value :=
  let n : Int := if negative then -(natural whole : Int) else natural whole
  match fraction, exponent, fitsInteger n with
  | none, none, true => .integer n
  | _, _, _ =>
    let places := fraction.getD []
    .real (Double.ofDecimal negative (natural (whole ++ places)) (exponent.getD 0 - places.length))

def read? (s : String) : Option Value := do
  let (negative, cs) := sign (s.toList.dropWhile isSpace)
  let whole := cs.takeWhile isDigit
  let (places, cs) := fraction (cs.dropWhile isDigit)
  if whole.isEmpty && (places.getD []).isEmpty then failure
  let (exponent, cs) ← exponent? cs
  if cs.all isSpace then return value negative whole places exponent else failure

end NestedSet.Numeral
