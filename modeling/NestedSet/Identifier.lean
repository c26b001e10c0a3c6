import NestedSet.Text.Quoted

/-!
# Names of tables and columns

A name is one to 64 bytes of ASCII letters, digits and underscores that does
not start with a digit, so it can be quoted by putting it between double quotes.
-/

set_option autoImplicit false

namespace NestedSet

inductive IdentifierError where
  | empty
  | tooLong
  | invalidFirstChar
  | invalidChar (ch : Char) (index : Nat)
  deriving DecidableEq, Repr

namespace IdentifierError

def summary : IdentifierError → String
  | .empty => "identifier must not be empty"
  | .tooLong => "identifier is too long"
  | .invalidFirstChar => "identifier must start with a letter or '_'"
  | .invalidChar _ _ => "identifier may only contain [A-Za-z0-9_]"

def message : IdentifierError → String
  | .invalidChar ch index =>
    (IdentifierError.invalidChar ch index).summary ++ s!" (found {Text.quotedChar ch} at {index})"
  | e => e.summary

end IdentifierError

structure Identifier where
  name : String
  deriving DecidableEq, Repr

namespace Identifier

def maxBytes : Nat := 64

def isLetter (c : Char) : Bool :=
  (decide ('a' ≤ c) && decide (c ≤ 'z')) || (decide ('A' ≤ c) && decide (c ≤ 'Z'))

def isDigit (c : Char) : Bool := decide ('0' ≤ c) && decide (c ≤ '9')

def isStart (c : Char) : Bool := isLetter c || c == '_'

def isPart (c : Char) : Bool := isLetter c || isDigit c || c == '_'

def firstBad : Nat → List Char → Option (Char × Nat)
  | _, [] => none
  | index, c :: rest => if isPart c then firstBad (index + 1) rest else some (c, index)

/-- The length limit counts bytes; the index of a bad character counts characters. -/
def fault? (s : String) : Option IdentifierError :=
  match s.toList with
  | [] => some .empty
  | first :: rest =>
    if maxBytes < s.utf8ByteSize then some .tooLong
    else if isStart first then (firstBad 1 rest).map fun (c, i) => .invalidChar c i
    else some .invalidFirstChar

def ofString (s : String) : Except IdentifierError Identifier :=
  match fault? s with
  | none => .ok ⟨s⟩
  | some e => .error e

/-- The double-quoted form, which reserved words may take too. -/
def quoted (i : Identifier) : String := "\"" ++ i.name ++ "\""

/-- Two names with the same key name the same object. -/
def key (i : Identifier) : String := Text.fold i.name

theorem ofString_eq_ok_iff {s : String} {i : Identifier} :
    ofString s = .ok i ↔ fault? s = none ∧ i = ⟨s⟩ := by
  unfold ofString
  cases h : fault? s with
  | none => exact ⟨fun e => ⟨rfl, (Except.ok.inj e).symm⟩, fun e => by rw [e.2]⟩
  | some e => simp

end Identifier

end NestedSet
