import NestedSet.Text.Extending
import NestedSet.Text.Invisible

/-!
# Quoted text in messages

Messages quote a string in double and a character in single quotes. The quote
in use, the backslash and five controls have short escapes; a character that
does not print, or that would join the one before it, is written by its number.
-/

set_option autoImplicit false

namespace NestedSet.Text

def isPlain (c : Char) : Bool := !isInvisible c && !isExtending c

def hexDigits (n : Nat) : List Char := Nat.toDigits 16 n

def escape (quote c : Char) : List Char :=
  match c with
  | '\x00' => ['\\', '0']
  | '\t' => ['\\', 't']
  | '\r' => ['\\', 'r']
  | '\n' => ['\\', 'n']
  | '\\' => ['\\', '\\']
  | _ =>
    if c = quote then ['\\', c]
    else if isPlain c then [c]
    else ['\\', 'u', '\x7b'] ++ hexDigits c.toNat ++ ['\x7d']

def quotedString (s : String) : String :=
  String.ofList (['"'] ++ s.toList.flatMap (escape '"') ++ ['"'])

def quotedChar (c : Char) : String :=
  String.ofList (['\''] ++ escape '\'' c ++ ['\''])

end NestedSet.Text
