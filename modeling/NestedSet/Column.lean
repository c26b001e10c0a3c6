import NestedSet.Identifier
import NestedSet.Value.Affinity

/-!
# What a column declaration means

A declaration is a type, which may be missing, followed by constraints. Of the
constraints four are kept: that the column is never empty, that no two rows
agree in it, what a row holds in it that was given no value, and how its texts
are compared. What follows a comma outside brackets declares another column. A
declaration can say more than that; `isCovered` tells whether it does.
-/

set_option autoImplicit false

namespace NestedSet

inductive Collation where
  | binary
  | nocase
  | rtrim
  deriving DecidableEq, Repr

namespace Collation

def ofName (name : String) : Collation :=
  let key := Text.fold name
  if key = "nocase" then .nocase else if key = "rtrim" then .rtrim else .binary

def image : Collation → Value → Value
  | .nocase, .text s => .text (Text.fold s)
  | .rtrim, .text s => .text (String.ofList (s.toList.reverse.dropWhile (· == ' ')).reverse)
  | _, v => v

end Collation

structure Column where
  name : Identifier
  affinity : Affinity
  notNull : Bool := false
  unique : Bool := false
  default : Value := .null
  collation : Collation := .binary
  deriving DecidableEq, Repr

namespace Column

inductive Token where
  | word (s : String)
  | opening
  | closing
  | comma
  deriving DecidableEq, Repr

def flush (letters : List Char) (rest : List Token) : List Token :=
  if letters.isEmpty then rest else .word (String.ofList letters.reverse) :: rest

def tokens : List Char → List Char → List Token
  | letters, [] => flush letters []
  | letters, c :: rest =>
    if Identifier.isPart c then tokens (c :: letters) rest
    else
      let following := tokens [] rest
      flush letters
        (if c = '(' then .opening :: following
        else if c = ')' then .closing :: following
        else if c = ',' then .comma :: following
        else following)

/-- The tokens between the commas that stand outside brackets. -/
def items : Nat → List Token → List (List Token)
  | _, [] => [[]]
  | 0, .comma :: rest => [] :: items 0 rest
  | depth, t :: rest =>
    let depth := match t with
      | .opening => depth + 1
      | .closing => depth - 1
      | _ => depth
    match items depth rest with
    | [] => [[t]]
    | item :: more => (t :: item) :: more

def constraintWords : List String :=
  ["constraint", "primary", "not", "null", "unique", "check", "default", "collate", "references",
    "deferrable", "generated", "as"]

def isTypeWord : Token → Bool
  | .word s => !constraintWords.contains (Text.fold s)
  | _ => false

def wordText : Token → String
  | .word s => s
  | _ => ""

def typeName (ts : List Token) : String := " ".intercalate ((ts.takeWhile isTypeWord).map wordText)

def hexDigit? (c : Char) : Option Nat :=
  "0123456789abcdef".toList.idxOf? c

/-- The number of up to 64 bits that hexadecimal digits spell, the highest bit being its sign. -/
def hexadecimal (digits : List Char) : Int :=
  Int.bmod (digits.foldl (fun n c => 16 * n + (hexDigit? c).getD 0) 0 : Nat) (Nat.pow 2 64)

def number? (word : List Char) : Option Value :=
  match word.filter (· != '_') with
  | '0' :: 'x' :: digits => some (.integer (hexadecimal digits))
  | c :: digits => if Numeral.isDigit c then Numeral.read? (String.ofList (c :: digits)) else none
  | [] => none

def literal (word : String) : Value :=
  let key := Text.fold word
  if key = "null" then .null
  else if key = "true" then .integer 1
  else if key = "false" then .integer 0
  else (number? key.toList).getD (.text word)

def constrain (c : Column) : List Token → Column
  | [] => c
  | .word a :: rest =>
    let key := Text.fold a
    if key = "unique" then constrain { c with unique := true } rest
    else
      match rest with
      | .word b :: rest =>
        if key = "not" ∧ Text.fold b = "null" then constrain { c with notNull := true } rest
        else if key = "default" then constrain { c with default := literal b } rest
        else if key = "collate" then constrain { c with collation := .ofName b } rest
        else constrain c (.word b :: rest)
      | .opening :: .word b :: .closing :: rest =>
        if key = "default" then constrain { c with default := literal b } rest
        else constrain c rest
      | rest => constrain c rest
  | _ :: rest => constrain c rest
  termination_by ts => ts.length

def ofTokens (name : Identifier) (ts : List Token) : Column :=
  constrain { name := name, affinity := Affinity.ofType (typeName ts) } (ts.dropWhile isTypeWord)

def tableWords : List String := ["constraint", "primary", "unique", "check", "foreign"]

def further? : List Token → Option Column
  | .word name :: ts =>
    if tableWords.contains (Text.fold name) then none else some (ofTokens ⟨name⟩ ts)
  | _ => none

/-- The column with the given name and declaration, and those that the declaration adds after
a comma. -/
def declared (name : Identifier) (declaration : String) : List Column :=
  match items 0 (tokens [] declaration.toList) with
  | [] => []
  | first :: more => ofTokens name first :: more.filterMap further?

/-! ### Declarations that say no more than a column keeps -/

/-- Words that are no names, besides those of constraints. -/
def reservedWords : List String :=
  ["add", "all", "alter", "and", "autoincrement", "between", "case", "commit", "create", "delete",
    "distinct", "drop", "else", "escape", "except", "exists", "foreign", "from", "group", "having",
    "in", "index", "insert", "intersect", "into", "is", "isnull", "join", "limit", "nothing",
    "notnull", "on", "or", "order", "returning", "select", "set", "table", "then", "to",
    "transaction", "union", "update", "using", "values", "when", "where"]

/-- Words that name columns but no types. -/
def joinWords : List String :=
  ["cross", "full", "indexed", "inner", "left", "natural", "outer", "right"]

/-- Defaults that are found anew for every row. -/
def momentWords : List String := ["current_time", "current_date", "current_timestamp"]

def isName (word : String) : Bool :=
  let key := Text.fold word
  word.toList.head?.any Identifier.isStart && !constraintWords.contains key &&
    !reservedWords.contains key

def isTypeName : Token → Bool
  | .word s => isName s && !joinWords.contains (Text.fold s)
  | _ => false

/-- Digits, with an exponent or none, or hexadecimal digits that fit 64 bits. -/
def isNumeral (word : String) : Bool :=
  match word.toList.map Text.foldChar with
  | '0' :: 'x' :: digits =>
    !digits.isEmpty && digits.all (fun c => (hexDigit? c).isSome) &&
      (digits.dropWhile (· == '0')).length ≤ 16
  | c :: digits => Numeral.isDigit c && (Numeral.read? (String.ofList (c :: digits))).isSome
  | [] => false

/-- Whether a word is one value for all rows. -/
def isConstant (word : String) : Bool :=
  let key := Text.fold word
  key == "null" || isNumeral word ||
    (isTypeName (.word word) && !momentWords.contains key)

/-- Whether the constraints only say that the column is never empty or unique, or name one value
as its default. No clause says what becomes of a conflict, nothing is computed, checked or
referred to, and texts are compared as they are. -/
def areCovered : List Token → Bool
  | [] => true
  | .word a :: rest =>
    let key := Text.fold a
    if key = "unique" ∨ key = "null" then areCovered rest
    else
      match rest with
      | .word b :: rest =>
        ((key = "not" ∧ Text.fold b = "null") ∨ (key = "default" ∧ isConstant b) ∨
          (key = "constraint" ∧ isName b)) && areCovered rest
      | _ => false
  | _ => false

def afterSize : List Token → List Token
  | .opening :: .word a :: .closing :: rest =>
    if isNumeral a then rest else .opening :: .word a :: .closing :: rest
  | .opening :: .word a :: .comma :: .word b :: .closing :: rest =>
    if isNumeral a && isNumeral b then rest
    else .opening :: .word a :: .comma :: .word b :: .closing :: rest
  | ts => ts

def isCoveredItem (ts : List Token) : Bool :=
  areCovered (if ts.head?.any isTypeName then afterSize (ts.dropWhile isTypeName) else ts)

def isCoveredFurther : List Token → Bool
  | .word name :: ts => isName name && isCoveredItem ts
  | _ => false

/-- Whether the database takes a declaration, and a column has all that it says. -/
def isCovered (declaration : String) : Bool :=
  match items 0 (tokens [] declaration.toList) with
  | [] => true
  | first :: more => isCoveredItem first && more.all isCoveredFurther

/-- The words of a type, behind them a size in brackets or none, and nothing but NOT NULL. -/
structure IsPlain (words size rest : List Token) : Prop where
  names : ∀ w ∈ words, isTypeName w = true
  brackets : size = [] ∨ words ≠ [] ∧
    ((∃ a, isNumeral a = true ∧ size = [.opening, .word a, .closing]) ∨
      ∃ a b, (isNumeral a && isNumeral b) = true ∧
        size = [.opening, .word a, .comma, .word b, .closing])
  behind : rest = [] ∨
    ∃ a b, rest = [.word a, .word b] ∧ Text.fold a = "not" ∧ Text.fold b = "null"

theorem isCoveredItem_of_isPlain {words size rest : List Token} (h : IsPlain words size rest) :
    isCoveredItem (words ++ size ++ rest) = true := by
  have hrest : areCovered rest = true ∧ afterSize rest = rest ∧
      rest.dropWhile isTypeName = rest ∧ rest.head?.any isTypeName = false := by
    obtain rfl | ⟨a, b, rfl, ha, hb⟩ := h.behind
    · exact ⟨rfl, rfl, rfl, rfl⟩
    · simp [areCovered, afterSize, isTypeName, isName, constraintWords, ha, hb]
  have hsize : (size ++ rest).dropWhile isTypeName = size ++ rest ∧
      (words ≠ [] → afterSize (size ++ rest) = rest) := by
    obtain rfl | ⟨-, ⟨a, ha, rfl⟩ | ⟨a, b, hab, rfl⟩⟩ := h.brackets
    · exact ⟨hrest.2.2.1, fun _ => hrest.2.1⟩
    · exact ⟨rfl, fun _ => if_pos ha⟩
    · exact ⟨rfl, fun _ => if_pos hab⟩
  have hdrop : (words ++ size ++ rest).dropWhile isTypeName = size ++ rest := by
    rw [List.append_assoc, List.dropWhile_append_of_pos h.names, hsize.1]
  rw [isCoveredItem, hdrop]
  cases words with
  | nil =>
    have hnil : size = [] := h.brackets.resolve_right fun hw => hw.1 rfl
    rw [hnil, List.nil_append, List.nil_append, hrest.2.2.2]
    exact hrest.1
  | cons w words =>
    have hw : ((w :: words) ++ size ++ rest).head?.any isTypeName = true :=
      h.names w List.mem_cons_self
    rw [hw, if_pos rfl, hsize.2 (List.cons_ne_nil _ _)]
    exact hrest.1

/-- A type that says at most that the column is never empty is covered. -/
theorem isCovered_of_isPlain {declaration : String} {words size rest : List Token}
    (h : IsPlain words size rest)
    (hone : items 0 (tokens [] declaration.toList) = [words ++ size ++ rest]) :
    isCovered declaration = true := by
  simp only [isCovered, hone, List.all_nil, Bool.and_true]
  exact isCoveredItem_of_isPlain h

example : isCovered "VARCHAR(10) NOT NULL DEFAULT 'none'" = true := by decide +kernel

example : isCovered "TEXT UNIQUE ON CONFLICT REPLACE" = false := by decide +kernel

def hold (c : Column) (v : Value) : Value := c.affinity.convert v

def initial (c : Column) : Value := c.hold c.default

def key (c : Column) : String := c.name.key

end Column

end NestedSet
