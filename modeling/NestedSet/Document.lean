import NestedSet.Double
import NestedSet.Text.Quoted
import NestedSet.Double.Digits

/-!
# JSON documents

A document keeps the members of an object in the order in which they are
written, repeated keys included. A number is an integer if it is written as one
and fits 64 bits, signed or unsigned; any other number is a real.
-/

set_option autoImplicit false

namespace NestedSet

inductive Document where
  | null
  | bool (b : Bool)
  | integer (n : Int)
  | real (r : Double)
  | string (s : String)
  | array (items : List Document)
  | object (members : List (String × Document))

namespace Document

/-- Reals in messages have the fewest digits, with an exponent from 10^16 on and below 10^-5. -/
def realStyle : Double.Style := ⟨-5, 16, false, true, 1⟩

def realText (r : Double) : String :=
  let sign := if r.isNegative then ['-'] else []
  if r.magnitude = 0 then String.ofList (sign ++ ['0', '.', '0'])
  else String.ofList (sign ++ realStyle.layout r.shortest)

def found : Document → String
  | .null => "null"
  | .bool true => "boolean `true`"
  | .bool false => "boolean `false`"
  | .integer n => s!"integer `{n}`"
  | .real r => "floating point `" ++ realText r ++ "`"
  | .string s => "string " ++ Text.quotedString s
  | .array _ => "sequence"
  | .object _ => "map"

end Document

end NestedSet
