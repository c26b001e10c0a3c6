import NestedSet.Double.Digits
import NestedSet.Text.Blank
import NestedSet.Value.Numeral

/-!
# Column affinities

The declared type of a column decides what it makes of a value. Conversions
keep the value and change its kind: bytes and nothing are never touched, and
a text that is no number stays a text.
-/

set_option autoImplicit false

namespace NestedSet

inductive Affinity where
  | text
  | numeric
  | real
  /-- Values are kept as they are. -/
  | none
  deriving DecidableEq, Repr

namespace Affinity

def hasInfix (part : List Char) : List Char → Bool
  | [] => part.isEmpty
  | c :: rest => part.isPrefixOf (c :: rest) || hasInfix part rest

/-- The affinity of a declared type, from the words it contains; integer types are numeric. -/
def ofType (type : String) : Affinity :=
  let cs := (Text.fold type).toList
  let mentions (word : String) : Bool := hasInfix word.toList cs
  if mentions "int" then .numeric
  else if mentions "char" || mentions "clob" || mentions "text" then .text
  else if mentions "blob" || cs.isEmpty then .none
  else if mentions "real" || mentions "floa" || mentions "doub" then .real
  else .numeric

/-- Reals turned into text have fifteen digits at most, and always a point. -/
def realStyle : Double.Style := ⟨-4, 15, true, true, 2⟩

def realText (r : Double) : String :=
  let sign := if r.isNegative then ['-'] else []
  if r.magnitude = 0 then "0.0"
  else if r.isInfinite then String.ofList (sign ++ ['I', 'n', 'f'])
  else String.ofList (sign ++ realStyle.layout (r.rounded 15))

/-- A real that is an integer becomes one, short of the two ends of the range. -/
def settle (r : Double) : Value :=
  match r.toInt? with
  | some n => if -(Nat.pow 2 63 : Int) < n ∧ n < Nat.pow 2 63 - 1 then .integer n else .real r
  | Option.none => .real r

def toText : Value → Value
  | .integer n => .text (toString n)
  | .real r => .text (realText r)
  | v => v

def toNumber : Value → Value
  | .real r => settle r
  | .text s =>
    match Numeral.read? s with
    | some (.real r) => settle r
    | some v => v
    | Option.none => .text s
  | v => v

def toReal (v : Value) : Value :=
  match toNumber v with
  | .integer n => .real (Double.ofInt n)
  | v => v

def convert (a : Affinity) (v : Value) : Value :=
  match a with
  | .text => toText v.bound
  | .numeric => toNumber v.bound
  | .real => toReal v.bound
  | .none => v.bound

theorem convert_null (a : Affinity) : a.convert .null = .null := by
  cases a <;> rfl

theorem convert_numeric_integer (n : Int) : Affinity.numeric.convert (.integer n) = .integer n :=
  rfl

theorem convert_text_text (s : String) : Affinity.text.convert (.text s) = .text s := rfl

end Affinity

end NestedSet
