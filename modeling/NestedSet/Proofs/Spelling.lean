import Mathlib
import NestedSet.Document.Reader

/-!
# How documents are spelled

A document has many texts: white space stands freely between its parts, and the
characters of a string stand for themselves, behind a backslash, or as the
hexadecimal numbers of their 16-bit units. The reader takes every one of these
texts back to the document, if it does not nest too deep.
-/

set_option autoImplicit false

namespace NestedSet.Document

/-! ### The texts of a string -/

def IsHexDigit (v : Nat) (c : Char) : Prop := v < 16 ∧ (c = v.digitChar ∨ c = v.digitChar.toUpper)

instance (v : Nat) (c : Char) : Decidable (IsHexDigit v c) := inferInstanceAs (Decidable (_ ∧ _))

def SpellsUnit (n : Nat) (cs : List Char) : Prop :=
  ∃ v₃ v₂ v₁ v₀ c₃ c₂ c₁ c₀, cs = [c₃, c₂, c₁, c₀] ∧
    IsHexDigit v₃ c₃ ∧ IsHexDigit v₂ c₂ ∧ IsHexDigit v₁ c₁ ∧ IsHexDigit v₀ c₀ ∧
    n = ((v₃ * 16 + v₂) * 16 + v₁) * 16 + v₀

def shortEscapes : List (Char × Char) :=
  [('"', '"'), ('\\', '\\'), ('/', '/'), ('b', '\x08'), ('f', '\x0c'), ('n', '\n'), ('r', '\r'),
    ('t', '\t')]

/-- A character above the 16-bit ones is given by two units, its surrogates. -/
inductive SpellsChar : Char → List Char → Prop
  | plain {c : Char} (hcontrol : 0x20 ≤ c.toNat) (hquote : c ≠ '"') (hbackslash : c ≠ '\\') :
      SpellsChar c [c]
  | short {letter c : Char} (h : (letter, c) ∈ shortEscapes) : SpellsChar c ['\\', letter]
  | unit {c : Char} {ds : List Char} (h : SpellsUnit c.toNat ds) : SpellsChar c ('\\' :: 'u' :: ds)
  | pair {c : Char} {high low : List Char} (hc : 0x10000 ≤ c.toNat)
      (hhigh : SpellsUnit (0xD800 + (c.toNat - 0x10000) / 0x400) high)
      (hlow : SpellsUnit (0xDC00 + (c.toNat - 0x10000) % 0x400) low) :
      SpellsChar c ('\\' :: 'u' :: high ++ '\\' :: 'u' :: low)

inductive SpellsText : List Char → List Char → Prop
  | nil : SpellsText [] []
  | cons {c : Char} {text cs ds : List Char} (hc : SpellsChar c cs) (htext : SpellsText text ds) :
      SpellsText (c :: text) (cs ++ ds)

def SpellsString (s : String) (cs : List Char) : Prop :=
  ∃ ds, SpellsText s.toList ds ∧ cs = '"' :: ds ++ ['"']

theorem spellsText_plain {text : List Char}
    (h : ∀ c ∈ text, 0x20 ≤ c.toNat ∧ c ≠ '"' ∧ c ≠ '\\') : SpellsText text text := by
  induction text with
  | nil => exact .nil
  | cons c rest ih =>
    obtain ⟨hc, hrest⟩ := List.forall_mem_cons.1 h
    exact .cons (.plain hc.1 hc.2.1 hc.2.2) (ih hrest)

theorem spellsString_plain {s : String} (h : ∀ c ∈ s.toList, 0x20 ≤ c.toNat ∧ c ≠ '"' ∧ c ≠ '\\') :
    SpellsString s ('"' :: s.toList ++ ['"']) := ⟨_, spellsText_plain h, rfl⟩

/-! ### The texts of a document -/

def IsGap (cs : List Char) : Prop := ∀ c ∈ cs, c ∈ [' ', '\t', '\n', '\r']

theorem isGap_nil : IsGap [] := fun _ h => absurd h List.not_mem_nil

mutual

/-- The texts of a document without truth values and reals; an integer is written as it is
printed. -/
inductive Spells : Document → List Char → Prop
  | null : Spells .null ['n', 'u', 'l', 'l']
  | integer (n : Int) : Spells (.integer n) (toString n).toList
  | string {s : String} {cs : List Char} (h : SpellsString s cs) : Spells (.string s) cs
  | emptyArray {gap : List Char} (hgap : IsGap gap) : Spells (.array []) ('[' :: gap ++ [']'])
  | array {items : List Document} {cs : List Char} (h : SpellsItems items cs) :
      Spells (.array items) ('[' :: cs)
  | emptyObject {gap : List Char} (hgap : IsGap gap) :
      Spells (.object []) ('\x7b' :: gap ++ ['\x7d'])
  | object {members : List (String × Document)} {cs : List Char} (h : SpellsMembers members cs) :
      Spells (.object members) ('\x7b' :: cs)

inductive SpellsItems : List Document → List Char → Prop
  | last {v : Document} {before cs after : List Char} (hbefore : IsGap before) (hv : Spells v cs)
      (hafter : IsGap after) : SpellsItems [v] (before ++ cs ++ after ++ [']'])
  | more {v : Document} {items : List Document} {before cs after rest : List Char}
      (hbefore : IsGap before) (hv : Spells v cs) (hafter : IsGap after)
      (hrest : SpellsItems items rest) :
      SpellsItems (v :: items) (before ++ cs ++ after ++ ',' :: rest)

inductive SpellsMembers : List (String × Document) → List Char → Prop
  | last {key : String} {v : Document} {before ks beforeColon afterColon cs after : List Char}
      (hbefore : IsGap before) (hkey : SpellsString key ks) (hbeforeColon : IsGap beforeColon)
      (hafterColon : IsGap afterColon) (hv : Spells v cs) (hafter : IsGap after) :
      SpellsMembers [(key, v)]
        (before ++ ks ++ beforeColon ++ ':' :: (afterColon ++ cs ++ after ++ ['\x7d']))
  | more {key : String} {v : Document} {members : List (String × Document)}
      {before ks beforeColon afterColon cs after rest : List Char}
      (hbefore : IsGap before) (hkey : SpellsString key ks) (hbeforeColon : IsGap beforeColon)
      (hafterColon : IsGap afterColon) (hv : Spells v cs) (hafter : IsGap after)
      (hrest : SpellsMembers members rest) :
      SpellsMembers ((key, v) :: members)
        (before ++ ks ++ beforeColon ++ ':' :: (afterColon ++ cs ++ after ++ ',' :: rest))

end

/-- The documents that nest at most so deep and hold no integer beyond 64 bits. -/
inductive Readable : Nat → Document → Prop
  | null {depth : Nat} : Readable depth .null
  | integer {depth : Nat} {n : Int} (hlow : -2 ^ 63 ≤ n) (hhigh : n < 2 ^ 64) :
      Readable depth (.integer n)
  | string {depth : Nat} {s : String} : Readable depth (.string s)
  | array {depth : Nat} {items : List Document} (h : ∀ v ∈ items, Readable depth v) :
      Readable (depth + 1) (.array items)
  | object {depth : Nat} {members : List (String × Document)}
      (h : ∀ m ∈ members, Readable depth m.2) : Readable (depth + 1) (.object members)

/-! ### Reading a string -/

theorem hexValue?_of_isHexDigit {v : Nat} {c : Char} (h : IsHexDigit v c) :
    hexValue? c = some v := by
  obtain ⟨hv, rfl | rfl⟩ := h
  · interval_cases v <;> rfl
  · interval_cases v <;> rfl

theorem pieces?_unit {n : Nat} {ds cs : List Char} (h : SpellsUnit n ds) :
    pieces? ('\\' :: 'u' :: ds ++ cs) =
      (pieces? cs).map fun (ps, rest) => (.unit n :: ps, rest) := by
  obtain ⟨v₃, v₂, v₁, v₀, c₃, c₂, c₁, c₀, rfl, h₃, h₂, h₁, h₀, rfl⟩ := h
  have hvalue : hexUnit? c₃ c₂ c₁ c₀ = some (((v₃ * 16 + v₂) * 16 + v₁) * 16 + v₀) := by
    simp only [hexUnit?, hexValue?_of_isHexDigit h₃, hexValue?_of_isHexDigit h₂,
      hexValue?_of_isHexDigit h₁, hexValue?_of_isHexDigit h₀, Option.bind_eq_bind, Option.bind_some]
    congr 1
    omega
  simp only [List.cons_append, List.nil_append, pieces?, hvalue]
  cases pieces? cs <;> rfl

theorem pieces?_short {letter c : Char} {cs : List Char} (h : (letter, c) ∈ shortEscapes) :
    pieces? ('\\' :: letter :: cs) = (pieces? cs).map fun (ps, rest) => (.char c :: ps, rest) := by
  have hletter : letter ≠ 'u' ∧ shortEscape? letter = some c := by
    simp only [shortEscapes, List.mem_cons, Prod.mk.injEq, List.not_mem_nil, or_false] at h
    rcases h with h | h | h | h | h | h | h | h <;> obtain ⟨rfl, rfl⟩ := h <;> decide
  rw [pieces?]
  · rw [hletter.2]
    cases pieces? cs <;> rfl
  · rintro _ _ _ _ _ rfl
    exact absurd rfl hletter.1

theorem pieces?_plain {c : Char} {cs : List Char} (hcontrol : 0x20 ≤ c.toNat) (hquote : c ≠ '"')
    (hbackslash : c ≠ '\\') :
    pieces? (c :: cs) = (pieces? cs).map fun (ps, rest) => (.char c :: ps, rest) := by
  rw [pieces?]
  · rw [if_neg (Nat.not_lt.2 hcontrol)]
    cases pieces? cs <;> rfl
  · exact hquote
  · rintro _ _ _ _ _ rfl
    exact absurd rfl hbackslash
  · rintro _ _ rfl
    exact absurd rfl hbackslash

theorem join?_unit {n : Nat} {ps : List Piece} (hhigh : isHigh n = false) (hlow : isLow n = false) :
    join? (.unit n :: ps) = (join? ps).map (Char.ofNat n :: ·) := by
  match ps with
  | [] => simp [join?, hhigh, hlow]
  | .char c :: rest => simp [join?, hhigh, hlow]
  | .unit m :: rest => simp [join?, hhigh, hlow]

theorem join?_pair {c : Char} {ps : List Piece} (hc : 0x10000 ≤ c.toNat) :
    join? (.unit (0xD800 + (c.toNat - 0x10000) / 0x400) ::
      .unit (0xDC00 + (c.toNat - 0x10000) % 0x400) :: ps) = (join? ps).map (c :: ·) := by
  have hmax : c.toNat < 0x110000 := by
    rcases c.valid with h | h
    · exact Nat.lt_trans h (by decide)
    · exact h.2
  have hhigh : isHigh (0xD800 + (c.toNat - 0x10000) / 0x400) = true := by
    simp [isHigh]
    omega
  have hlow : isLow (0xDC00 + (c.toNat - 0x10000) % 0x400) = true := by
    simp [isLow]
    omega
  have hvalue : 0x10000 + 0x400 * (0xD800 + (c.toNat - 0x10000) / 0x400 - 0xD800) +
      (0xDC00 + (c.toNat - 0x10000) % 0x400 - 0xDC00) = c.toNat := by
    omega
  rw [join?, if_pos hhigh, if_pos hlow, hvalue, Char.ofNat_toNat]

theorem not_surrogate (c : Char) : isHigh c.toNat = false ∧ isLow c.toNat = false := by
  have hvalid : c.toNat < 0xD800 ∨ 0xDFFF < c.toNat := by
    rcases c.valid with h | h
    · exact .inl h
    · exact .inr h.1
  simp only [isHigh, isLow, Bool.and_eq_false_iff, decide_eq_false_iff_not]
  omega

theorem pieces?_of_spells {text cs : List Char} (h : SpellsText text cs) (rest : List Char) :
    ∃ ps, pieces? (cs ++ '"' :: rest) = some (ps, rest) ∧ join? ps = some text := by
  induction h with
  | nil => exact ⟨[], rfl, rfl⟩
  | @cons c text cs ds hc _ ih =>
    obtain ⟨ps, hps, htext⟩ := ih
    rw [List.append_assoc]
    cases hc with
    | plain hcontrol hquote hbackslash =>
      refine ⟨.char c :: ps, ?_, by rw [join?, htext]; rfl⟩
      rw [List.singleton_append, pieces?_plain hcontrol hquote hbackslash, hps]
      rfl
    | short h =>
      refine ⟨.char c :: ps, ?_, by rw [join?, htext]; rfl⟩
      rw [List.cons_append, List.singleton_append, pieces?_short h, hps]
      rfl
    | unit h =>
      refine ⟨.unit c.toNat :: ps, by rw [pieces?_unit h, hps]; rfl, ?_⟩
      rw [join?_unit (not_surrogate c).1 (not_surrogate c).2, htext, Char.ofNat_toNat]
      rfl
    | pair hc hhigh hlow =>
      refine ⟨_, by rw [List.append_assoc, pieces?_unit hhigh, pieces?_unit hlow, hps]; rfl, ?_⟩
      rw [join?_pair hc, htext]
      rfl

theorem string?_of_spells {s : String} {cs rest : List Char} (h : SpellsString s ('"' :: cs)) :
    string? (cs ++ rest) = some (s, rest) := by
  obtain ⟨ds, htext, hcs⟩ := h
  obtain rfl : cs = ds ++ ['"'] := by simpa using hcs
  obtain ⟨ps, hps, hjoin⟩ := pieces?_of_spells htext rest
  rw [List.append_assoc, List.singleton_append, string?, hps]
  simp [hjoin]

/-! ### Reading an integer -/

/-- What may follow a number without belonging to it. -/
def Stops (rest : List Char) : Prop :=
  ∀ c ∈ rest.head?, isDigit c = false ∧ c ≠ '.' ∧ c ≠ 'e' ∧ c ≠ 'E'

theorem isDigit_of_mem_toDigits {n : Nat} {c : Char} (h : c ∈ Nat.toDigits 10 n) :
    isDigit c = true := by
  have hdigit := Nat.isDigit_of_mem_toDigits (by decide) (by decide) h
  simpa [isDigit, Char.isDigit, Char.le_def] using hdigit

theorem natural_toDigits (n : Nat) : natural (Nat.toDigits 10 n) = n :=
  Nat.ofDigitChars_eq_foldl.symm.trans Nat.ofDigitChars_ten_toDigits

theorem toDigits_head {n : Nat} (hn : 0 < n) : (Nat.toDigits 10 n).head? ≠ some '0' := by
  induction n using Nat.strong_induction_on with
  | _ n ih =>
    by_cases hlt : n < 10
    · rw [Nat.toDigits_of_lt_base hlt]
      simp
      omega
    · rw [Nat.toDigits_of_base_le (by decide) (by omega), List.head?_append]
      have := ih (n / 10) (by omega) (by omega)
      have hne : Nat.toDigits 10 (n / 10) ≠ [] := Nat.toDigits_ne_nil
      cases hd : Nat.toDigits 10 (n / 10) with
      | nil => exact absurd hd hne
      | cons d ds => simpa [hd] using this

theorem digits?_toDigits {n : Nat} {rest : List Char} (hrest : Stops rest) :
    digits? (Nat.toDigits 10 n ++ rest) = some (Nat.toDigits 10 n, rest) := by
  have hall : ∀ c ∈ Nat.toDigits 10 n, isDigit c = true := fun c hc => isDigit_of_mem_toDigits hc
  have htake : (Nat.toDigits 10 n ++ rest).takeWhile isDigit = Nat.toDigits 10 n := by
    rw [List.takeWhile_append_of_pos hall]
    cases rest with
    | nil => simp
    | cons c _ => simp [(hrest c rfl).1]
  have hdrop : (Nat.toDigits 10 n ++ rest).dropWhile isDigit = rest := by
    rw [List.dropWhile_append_of_pos hall]
    cases rest with
    | nil => rfl
    | cons c _ => simp [(hrest c rfl).1]
  rw [digits?, htake, hdrop]
  cases hdigits : Nat.toDigits 10 n with
  | nil => exact absurd hdigits Nat.toDigits_ne_nil
  | cons => rfl

theorem whole?_toDigits {n : Nat} {rest : List Char} (hrest : Stops rest) :
    whole? (Nat.toDigits 10 n ++ rest) = some (Nat.toDigits 10 n, rest) := by
  rw [whole?, digits?_toDigits hrest]
  split
  · rename_i hzero
    have hdigits : Nat.toDigits 10 n = '0' :: _ :: _ := congrArg Prod.fst (Option.some.inj hzero)
    rcases Nat.eq_zero_or_pos n with rfl | hn
    · simp [Nat.toDigits_zero] at hdigits
    · exact absurd (by rw [hdigits]; rfl) (toDigits_head hn)
  · rfl

theorem unsigned?_toDigits {n : Nat} {rest : List Char} (negative : Bool) (hrest : Stops rest) :
    unsigned? negative (Nat.toDigits 10 n ++ rest) =
      some (⟨negative, Nat.toDigits 10 n, none, none⟩, rest) := by
  have hfraction : fraction? rest = some (none, rest) := by
    rw [fraction?]
    rintro cs rfl
    exact (hrest '.' rfl).2.1 rfl
  have hexponent : exponent? rest = some (none, rest) := by
    rw [exponent?]
    · rintro cs rfl
      exact (hrest 'e' rfl).2.2.1 rfl
    · rintro cs rfl
      exact (hrest 'E' rfl).2.2.2 rfl
  simp [unsigned?, whole?_toDigits hrest, hfraction, hexponent]

theorem toList_toString_neg {n : Nat} (hn : 0 < n) :
    (toString (-(n : Int))).toList = '-' :: Nat.toDigits 10 n := by
  obtain ⟨m, rfl⟩ : ∃ m, n = m + 1 := ⟨n - 1, by omega⟩
  have htext : toString (-((m + 1 : Nat) : Int)) = "-" ++ Nat.repr (m + 1) := rfl
  rw [htext, String.toList_append, Nat.repr_eq_ofList_toDigits]
  simp

theorem toList_toString_nat (n : Nat) : (toString (n : Int)).toList = Nat.toDigits 10 n := by
  have htext : toString (n : Int) = Nat.repr n := rfl
  rw [htext, Nat.repr_eq_ofList_toDigits, String.toList_ofList]

theorem number?_toString {n : Int} {rest : List Char} (hlow : -2 ^ 63 ≤ n) (hhigh : n < 2 ^ 64)
    (hrest : Stops rest) : number? ((toString n).toList ++ rest) = some (.integer n, rest) := by
  rcases Int.lt_or_le n 0 with hn | hn
  · obtain ⟨m, rfl⟩ : ∃ m : Nat, n = -(m : Int) := ⟨n.natAbs, by omega⟩
    have hm : 0 < m := by omega
    have hvalue : (Lexeme.mk true (Nat.toDigits 10 m) none none).value? = some (.integer (-m)) := by
      have hfits : 0 < m ∧ m ≤ Nat.pow 2 63 := ⟨hm, by simp; omega⟩
      simp only [Lexeme.value?, Lexeme.integer?, natural_toDigits, if_pos hfits, if_true]
    rw [toList_toString_neg hm, List.cons_append, number?, lexeme?, unsigned?_toDigits true hrest]
    simp [hvalue]
  · obtain ⟨m, rfl⟩ : ∃ m : Nat, n = m := ⟨n.toNat, by omega⟩
    have hvalue : (Lexeme.mk false (Nat.toDigits 10 m) none none).value? = some (.integer m) := by
      have hfits : m < Nat.pow 2 64 := by simp; omega
      simp only [Lexeme.value?, Lexeme.integer?, natural_toDigits, if_pos hfits,
        Bool.false_eq_true, if_false]
    have hlexeme : lexeme? (Nat.toDigits 10 m ++ rest) =
        unsigned? false (Nat.toDigits 10 m ++ rest) := by
      rw [lexeme?]
      intro cs hcs
      have hminus : '-' ∈ (Nat.toDigits 10 m ++ rest).head? := by rw [hcs]; rfl
      cases hdigits : Nat.toDigits 10 m with
      | nil => exact absurd hdigits Nat.toDigits_ne_nil
      | cons c ds =>
        have hc : isDigit c = true := isDigit_of_mem_toDigits (hdigits ▸ List.mem_cons_self)
        rw [hdigits] at hminus
        obtain rfl : c = '-' := by simpa using hminus
        exact absurd hc (by decide)
    rw [toList_toString_nat, number?, hlexeme, unsigned?_toDigits false hrest]
    simp [hvalue]

/-! ### Reading a document -/

theorem isSpace_of_mem_gap {gap : List Char} (h : IsGap gap) : ∀ c ∈ gap, isSpace c = true := by
  intro c hc
  have hmem := h c hc
  simp only [List.mem_cons, List.not_mem_nil, or_false] at hmem
  rcases hmem with rfl | rfl | rfl | rfl <;> rfl

theorem skip_gap {gap cs : List Char} (h : IsGap gap) : skip (gap ++ cs) = skip cs :=
  List.dropWhile_append_of_pos (isSpace_of_mem_gap h)

theorem skip_skip (cs : List Char) : skip (skip cs) = skip cs := List.dropWhile_idempotent _ _

theorem skip_cons {c : Char} {cs : List Char} (hc : isSpace c = false) : skip (c :: cs) = c :: cs :=
  List.dropWhile_cons_of_neg (by simp [hc])

theorem value?_congr {steps depth : Nat} {cs ds : List Char} (h : skip cs = skip ds) :
    value? steps depth cs = value? steps depth ds := by
  cases steps with
  | zero => simp only [value?]
  | succ steps => simp only [value?, h]

theorem items?_congr {steps depth : Nat} {cs ds : List Char} (h : skip cs = skip ds) :
    items? steps depth cs = items? steps depth ds := by
  cases steps with
  | zero => simp only [items?]
  | succ steps => simp only [items?, value?_congr h]

theorem members?_congr {steps depth : Nat} {cs ds : List Char} (h : skip cs = skip ds) :
    members? steps depth cs = members? steps depth ds := by
  cases steps with
  | zero => simp only [members?]
  | succ steps => simp only [members?, h]

def BeginsNumber (c : Char) : Prop := c = '-' ∨ isDigit c = true

theorem BeginsNumber.ne {c x : Char} (hc : BeginsNumber c) (hx : x ≠ '-' ∧ isDigit x = false) :
    c ≠ x := by
  rintro rfl
  rcases hc with hc | hc
  · exact hx.1 hc
  · simp [hx.2] at hc

theorem BeginsNumber.isSpace_eq {c : Char} (hc : BeginsNumber c) : isSpace c = false := by
  simp [isSpace, hc.ne (x := ' ') (by decide), hc.ne (x := '\n') (by decide),
    hc.ne (x := '\t') (by decide), hc.ne (x := '\r') (by decide)]

theorem exists_head_integer (n : Int) :
    ∃ c ds, (toString n).toList = c :: ds ∧ BeginsNumber c := by
  rcases Int.lt_or_le n 0 with hn | hn
  · obtain ⟨m, rfl⟩ : ∃ m : Nat, n = -(m : Int) := ⟨n.natAbs, by omega⟩
    exact ⟨_, _, toList_toString_neg (by omega), .inl rfl⟩
  · obtain ⟨m, rfl⟩ : ∃ m : Nat, n = m := ⟨n.toNat, by omega⟩
    cases hdigits : Nat.toDigits 10 m with
    | nil => exact absurd hdigits Nat.toDigits_ne_nil
    | cons c ds =>
      exact ⟨c, ds, (toList_toString_nat m).trans hdigits,
        .inr (isDigit_of_mem_toDigits (hdigits ▸ List.mem_cons_self))⟩

theorem value?_number {steps depth : Nat} {c : Char} {cs : List Char} (hc : BeginsNumber c) :
    value? (steps + 1) depth (c :: cs) = number? (c :: cs) := by
  rw [value?, skip_cons hc.isSpace_eq]
  split
  · rename_i h; exact absurd (List.cons.inj h).1 (hc.ne (by decide))
  · rename_i h; exact absurd (List.cons.inj h).1 (hc.ne (by decide))
  · rename_i h; exact absurd (List.cons.inj h).1 (hc.ne (by decide))
  · rename_i h; exact absurd (List.cons.inj h).1 (hc.ne (by decide))
  · rename_i h; exact absurd (List.cons.inj h).1 (hc.ne (by decide))
  · rename_i h; exact absurd (List.cons.inj h).1 (hc.ne (by decide))
  · rfl

theorem value?_array {steps depth : Nat} {c : Char} {cs ds : List Char} (hcs : skip cs = c :: ds)
    (hc : c ≠ ']') : value? (steps + 1) (depth + 1) ('[' :: cs) =
      (items? steps depth cs).map fun (vs, rest) => (.array vs, rest) := by
  rw [← items?_congr (skip_skip cs), value?, skip_cons (by rfl)]
  simp only
  split
  · rename_i h
    exact absurd (List.cons.inj (hcs.symm.trans h)).1 hc
  · rfl

theorem value?_object {steps depth : Nat} {c : Char} {cs ds : List Char} (hcs : skip cs = c :: ds)
    (hc : c ≠ '\x7d') : value? (steps + 1) (depth + 1) ('\x7b' :: cs) =
      (members? steps depth cs).map fun (ms, rest) => (.object ms, rest) := by
  rw [← members?_congr (skip_skip cs), value?, skip_cons (by rfl)]
  simp only
  split
  · rename_i h
    exact absurd (List.cons.inj (hcs.symm.trans h)).1 hc
  · rfl

theorem exists_head_of_spells {d : Document} {cs : List Char} (h : Spells d cs) :
    ∃ c ds, cs = c :: ds ∧ isSpace c = false ∧ c ≠ ']' := by
  cases h with
  | null => exact ⟨_, _, rfl, rfl, by decide⟩
  | integer n =>
    obtain ⟨c, ds, hcs, hc⟩ := exists_head_integer n
    exact ⟨c, ds, hcs, hc.isSpace_eq, hc.ne (by decide)⟩
  | string h =>
    obtain ⟨ds, -, rfl⟩ := h
    exact ⟨_, _, rfl, rfl, by decide⟩
  | emptyArray => exact ⟨_, _, rfl, rfl, by decide⟩
  | array => exact ⟨_, _, rfl, rfl, by decide⟩
  | emptyObject => exact ⟨_, _, rfl, rfl, by decide⟩
  | object => exact ⟨_, _, rfl, rfl, by decide⟩

theorem skip_of_spells {d : Document} {gap cs rest : List Char} (hgap : IsGap gap)
    (h : Spells d cs) : ∃ c ds, skip (gap ++ cs ++ rest) = c :: ds ∧ c ≠ ']' := by
  obtain ⟨c, ds, rfl, hspace, hc⟩ := exists_head_of_spells h
  rw [List.append_assoc, skip_gap hgap, List.cons_append, skip_cons hspace]
  exact ⟨c, _, rfl, hc⟩

theorem skip_of_spellsItems {items : List Document} {cs : List Char} (h : SpellsItems items cs)
    (rest : List Char) : ∃ c ds, skip (cs ++ rest) = c :: ds ∧ c ≠ ']' := by
  cases h with
  | last hbefore hv =>
    rw [List.append_assoc, List.append_assoc]
    exact skip_of_spells hbefore hv
  | more hbefore hv =>
    rw [List.append_assoc, List.append_assoc]
    exact skip_of_spells hbefore hv

theorem skip_of_spellsMembers {members : List (String × Document)} {cs : List Char}
    (h : SpellsMembers members cs) (rest : List Char) :
    ∃ c ds, skip (cs ++ rest) = c :: ds ∧ c ≠ '\x7d' := by
  have hskip {key : String} {gap ks more : List Char} (hgap : IsGap gap)
      (hkey : SpellsString key ks) : ∃ c ds, skip (gap ++ ks ++ more) = c :: ds ∧ c ≠ '\x7d' := by
    obtain ⟨ds, -, rfl⟩ := hkey
    rw [List.append_assoc, skip_gap hgap]
    exact ⟨'"', _, rfl, by decide⟩
  cases h with
  | last hbefore hkey =>
    rw [List.append_assoc, List.append_assoc]
    exact hskip hbefore hkey
  | more hbefore hkey =>
    rw [List.append_assoc, List.append_assoc]
    exact hskip hbefore hkey

theorem stops_of_head {cs : List Char}
    (h : ∀ c ∈ cs.head?, c ∈ [' ', '\t', '\n', '\r', ',', ']', '\x7d']) : Stops cs := by
  intro c hc
  have hmem := h c hc
  revert hmem
  simp only [List.mem_cons, List.not_mem_nil, or_false]
  rintro (rfl | rfl | rfl | rfl | rfl | rfl | rfl) <;> decide

theorem stops_of_gap {gap rest : List Char} {c : Char} (hgap : IsGap gap)
    (hc : c ∈ [',', ']', '\x7d']) : Stops (gap ++ c :: rest) := by
  refine stops_of_head fun x hx => ?_
  cases gap with
  | nil =>
    obtain rfl : c = x := by simpa using hx
    exact List.mem_append_right [' ', '\t', '\n', '\r'] hc
  | cons y ys =>
    obtain rfl : y = x := by simpa using hx
    exact List.mem_append_left [',', ']', '\x7d'] (hgap y List.mem_cons_self)

theorem IsGap.stops {gap : List Char} (hgap : IsGap gap) : Stops gap :=
  stops_of_head fun c hc =>
    List.mem_append_left [',', ']', '\x7d'] (hgap c (List.mem_of_mem_head? hc))

theorem members?_key {key : String} {steps depth : Nat} {before ks gap cs : List Char}
    (hbefore : IsGap before) (hkey : SpellsString key ks) (hgap : IsGap gap) :
    members? (steps + 1) depth (before ++ (ks ++ (gap ++ ':' :: cs))) =
      match value? steps depth cs with
      | none => none
      | some (v, rest) =>
        match skip rest with
        | '\x7d' :: rest => some ([(key, v)], rest)
        | ',' :: rest => (members? steps depth rest).map fun (ms, rest) => ((key, v) :: ms, rest)
        | _ => none := by
  have hread := hkey
  obtain ⟨ds, -, rfl⟩ := hkey
  have hstring : string? (ds ++ ['"'] ++ (gap ++ ':' :: cs)) = some (key, gap ++ ':' :: cs) :=
    string?_of_spells hread
  rw [members?, skip_gap hbefore, List.cons_append, List.cons_append, skip_cons (by rfl)]
  simp only [hstring, skip_gap hgap]
  rw [skip_cons (by rfl)]
  rfl

mutual

/-- The reader takes a text of a document back to it, and stops where the text ends. -/
theorem value?_of_spells {d : Document} {cs : List Char} (h : Spells d cs) {depth steps : Nat}
    {rest : List Char} (hd : Readable depth d) (hsteps : 2 * cs.length ≤ steps)
    (hrest : Stops rest) : value? steps depth (cs ++ rest) = some (d, rest) := by
  obtain ⟨steps, rfl⟩ : ∃ n, steps = n + 1 := by
    obtain ⟨c, ds, rfl, -⟩ := exists_head_of_spells h
    exact ⟨steps - 1, by simp at hsteps; omega⟩
  cases h with
  | null => rfl
  | integer n =>
    cases hd with
    | integer hlow hhigh =>
      have hnumber := number?_toString hlow hhigh hrest
      obtain ⟨c, ds, hcs, hc⟩ := exists_head_integer n
      rw [hcs, List.cons_append] at hnumber ⊢
      rw [value?_number hc, hnumber]
  | @string s _ h =>
    have hread := h
    obtain ⟨ds, -, rfl⟩ := h
    have hstring : string? (ds ++ ['"'] ++ rest) = some (s, rest) := string?_of_spells hread
    rw [List.cons_append, List.cons_append, value?, skip_cons (by rfl)]
    simp only [hstring, Option.map_some]
  | emptyArray hgap =>
    cases hd with
    | array hd =>
      rw [List.cons_append, List.cons_append, List.append_assoc, value?, skip_cons (by rfl)]
      simp only [skip_gap hgap]
      rfl
  | @array items cs h =>
    cases hd with
    | @array depth _ hd =>
      obtain ⟨c, ds, hskip, hc⟩ := skip_of_spellsItems h rest
      have hitems : items? steps depth (cs ++ rest) = some (items, rest) :=
        items?_of_spells h hd (by simp at hsteps; omega)
      rw [List.cons_append, value?_array hskip hc, hitems]
      rfl
  | emptyObject hgap =>
    cases hd with
    | object hd =>
      rw [List.cons_append, List.cons_append, List.append_assoc, value?, skip_cons (by rfl)]
      simp only [skip_gap hgap]
      rfl
  | @object members cs h =>
    cases hd with
    | @object depth _ hd =>
      obtain ⟨c, ds, hskip, hc⟩ := skip_of_spellsMembers h rest
      have hmembers : members? steps depth (cs ++ rest) = some (members, rest) :=
        members?_of_spells h hd (by simp at hsteps; omega)
      rw [List.cons_append, value?_object hskip hc, hmembers]
      rfl

theorem items?_of_spells {items : List Document} {cs : List Char} (h : SpellsItems items cs)
    {depth steps : Nat} {rest : List Char} (hd : ∀ v ∈ items, Readable depth v)
    (hsteps : 2 * cs.length + 1 ≤ steps) :
    items? steps depth (cs ++ rest) = some (items, rest) := by
  obtain ⟨steps, rfl⟩ : ∃ n, steps = n + 1 := ⟨steps - 1, by omega⟩
  cases h with
  | @last v before cs after hbefore hv hafter =>
    have hvalue : value? steps depth (cs ++ (after ++ ']' :: rest)) =
        some (v, after ++ ']' :: rest) :=
      value?_of_spells hv (hd v List.mem_cons_self) (by simp at hsteps; omega)
        (stops_of_gap hafter (by simp))
    have htext : before ++ cs ++ after ++ [']'] ++ rest =
        before ++ (cs ++ (after ++ ']' :: rest)) := by
      simp
    rw [htext, items?, value?_congr (skip_gap hbefore), hvalue]
    simp only [skip_gap hafter]
    rfl
  | @more v items before cs after more hbefore hv hafter hmore =>
    have hvalue : value? steps depth (cs ++ (after ++ ',' :: (more ++ rest))) =
        some (v, after ++ ',' :: (more ++ rest)) :=
      value?_of_spells hv (hd v List.mem_cons_self) (by simp at hsteps; omega)
        (stops_of_gap hafter (by simp))
    have hitems : items? steps depth (more ++ rest) = some (items, rest) :=
      items?_of_spells hmore (fun w hw => hd w (List.mem_cons_of_mem v hw))
        (by simp at hsteps; omega)
    have htext : before ++ cs ++ after ++ ',' :: more ++ rest =
        before ++ (cs ++ (after ++ ',' :: (more ++ rest))) := by
      simp
    rw [htext, items?, value?_congr (skip_gap hbefore), hvalue]
    simp only [skip_gap hafter]
    rw [skip_cons (by rfl)]
    simp only [hitems]
    rfl

theorem members?_of_spells {members : List (String × Document)} {cs : List Char}
    (h : SpellsMembers members cs) {depth steps : Nat} {rest : List Char}
    (hd : ∀ m ∈ members, Readable depth m.2) (hsteps : 2 * cs.length + 1 ≤ steps) :
    members? steps depth (cs ++ rest) = some (members, rest) := by
  obtain ⟨steps, rfl⟩ : ∃ n, steps = n + 1 := ⟨steps - 1, by omega⟩
  cases h with
  | @last key v before ks beforeColon afterColon cs after hbefore hkey hcolon hcolon' hv hafter =>
    have hvalue : value? steps depth (cs ++ (after ++ '\x7d' :: rest)) =
        some (v, after ++ '\x7d' :: rest) :=
      value?_of_spells hv (hd _ List.mem_cons_self) (by simp at hsteps; omega)
        (stops_of_gap hafter (by simp))
    have htext : before ++ ks ++ beforeColon ++ ':' :: (afterColon ++ cs ++ after ++ ['\x7d']) ++
        rest = before ++ (ks ++ (beforeColon ++ ':' ::
          (afterColon ++ (cs ++ (after ++ '\x7d' :: rest))))) := by
      simp
    rw [htext, members?_key hbefore hkey hcolon, value?_congr (skip_gap hcolon'), hvalue]
    simp only [skip_gap hafter]
    rfl
  | @more key v members before ks beforeColon afterColon cs after more hbefore hkey hcolon hcolon'
      hv hafter hmore =>
    have hvalue : value? steps depth (cs ++ (after ++ ',' :: (more ++ rest))) =
        some (v, after ++ ',' :: (more ++ rest)) :=
      value?_of_spells hv (hd _ List.mem_cons_self) (by simp at hsteps; omega)
        (stops_of_gap hafter (by simp))
    have hmembers : members? steps depth (more ++ rest) = some (members, rest) :=
      members?_of_spells hmore (fun m hm => hd m (List.mem_cons_of_mem _ hm))
        (by simp at hsteps; omega)
    have htext : before ++ ks ++ beforeColon ++ ':' :: (afterColon ++ cs ++ after ++ ',' :: more) ++
        rest = before ++ (ks ++ (beforeColon ++ ':' ::
          (afterColon ++ (cs ++ (after ++ ',' :: (more ++ rest)))))) := by
      simp
    rw [htext, members?_key hbefore hkey hcolon, value?_congr (skip_gap hcolon'), hvalue]
    simp only [skip_gap hafter]
    rw [skip_cons (by rfl)]
    simp only [hmembers]
    rfl

end

def IsText (d : Document) (text : String) : Prop :=
  ∃ before cs after, IsGap before ∧ Spells d cs ∧ IsGap after ∧ text.toList = before ++ cs ++ after

theorem parse_of_isText {d : Document} {text : String} (h : IsText d text)
    (hd : Readable maxDepth d) : parse text = some d := by
  obtain ⟨before, cs, after, hbefore, hcs, hafter, htext⟩ := h
  have hvalue : value? (2 * text.toList.length + 2) maxDepth text.toList = some (d, after) := by
    have hsteps : 2 * cs.length ≤ 2 * text.toList.length + 2 := by
      rw [htext, List.length_append, List.length_append]
      omega
    have hread := value?_of_spells hcs hd hsteps hafter.stops
    rwa [← value?_congr (skip_gap hbefore), ← List.append_assoc, ← htext] at hread
  have hend : skip after = [] := by
    rw [← List.append_nil after, skip_gap hafter]
    rfl
  rw [parse]
  simp only [hvalue, hend]
  rfl

end NestedSet.Document
