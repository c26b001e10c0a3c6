import Mathlib
import NestedSet.Proofs.Naming

/-!
# The grammar of names

The names that are accepted, as a language over characters: a letter or an
underscore, then letters, digits and underscores. A word that is not too long
and begins as a name does is refused for the first character that no name
contains, whatever characters follow.
-/

set_option autoImplicit false

namespace NestedSet.Identifier

open scoped Computability

/-! ### The language -/

def between (first last : Char) : Language Char := {w | ∃ c, w = [c] ∧ first ≤ c ∧ c ≤ last}

def start : Language Char := between 'A' 'Z' + between 'a' 'z' + between '_' '_'

def part : Language Char := start + between '0' '9'

def grammar : Language Char := start * part∗

theorem singleton_mem_between {first last c : Char} :
    [c] ∈ between first last ↔ first ≤ c ∧ c ≤ last := by
  constructor
  · rintro ⟨_, ⟨⟩, h⟩
    exact h
  · exact fun h => ⟨c, rfl, h⟩

theorem singleton_mem_start {c : Char} : [c] ∈ start ↔ isStart c = true := by
  have hunderscore : '_' ≤ c ∧ c ≤ '_' ↔ c = '_' :=
    ⟨fun h => Char.le_antisymm h.2 h.1, fun h => h ▸ ⟨Char.le_refl _, Char.le_refl _⟩⟩
  simp only [start, Language.mem_add, singleton_mem_between, hunderscore, isStart, isLetter,
    Bool.or_eq_true, Bool.and_eq_true, decide_eq_true_eq, beq_iff_eq]
  tauto

theorem singleton_mem_part {c : Char} : [c] ∈ part ↔ isPart c = true := by
  simp only [part, Language.mem_add, singleton_mem_start, singleton_mem_between, isStart, isPart,
    isDigit, Bool.or_eq_true, Bool.and_eq_true, decide_eq_true_eq, beq_iff_eq]
  tauto

theorem exists_of_mem_part {w : List Char} (h : w ∈ part) : ∃ c, w = [c] := by
  rcases h with ((⟨c, rfl, -⟩ | ⟨c, rfl, -⟩) | ⟨c, rfl, -⟩) | ⟨c, rfl, -⟩ <;> exact ⟨c, rfl⟩

theorem exists_of_mem_start {w : List Char} (h : w ∈ start) : ∃ c, w = [c] :=
  exists_of_mem_part (.inl h)

theorem mem_kstar_part {cs : List Char} : cs ∈ part∗ ↔ ∀ c ∈ cs, isPart c = true := by
  rw [Language.mem_kstar]
  constructor
  · rintro ⟨words, rfl, hwords⟩ c hc
    obtain ⟨w, hw, hc⟩ := List.mem_flatten.1 hc
    obtain ⟨c', rfl⟩ := exists_of_mem_part (hwords w hw)
    obtain rfl := List.mem_singleton.1 hc
    exact singleton_mem_part.1 (hwords _ hw)
  · intro h
    refine ⟨cs.map fun c => [c], by rw [← List.flatMap_def, List.flatMap_singleton'], ?_⟩
    intro w hw
    obtain ⟨c, hc, rfl⟩ := List.mem_map.1 hw
    exact singleton_mem_part.2 (h c hc)

theorem mem_grammar {cs : List Char} :
    cs ∈ grammar ↔ ∃ first rest, cs = first :: rest ∧ isStart first = true ∧
      ∀ c ∈ rest, isPart c = true := by
  rw [grammar, Language.mem_mul]
  constructor
  · rintro ⟨w, hw, rest, hrest, rfl⟩
    obtain ⟨first, rfl⟩ := exists_of_mem_start hw
    exact ⟨first, rest, rfl, singleton_mem_start.1 hw, mem_kstar_part.1 hrest⟩
  · rintro ⟨first, rest, rfl, hfirst, hrest⟩
    exact ⟨[first], singleton_mem_start.2 hfirst, rest, mem_kstar_part.2 hrest, rfl⟩

/-! ### The scan -/

theorem admits_iff {s : String} : Admits s ↔ s.utf8ByteSize ≤ 64 ∧ s.toList ∈ grammar := by
  simp only [Admits, mem_grammar, isStart_iff, isPart_iff]

theorem one_le_of_mem_grammar {s : String} (h : s.toList ∈ grammar) : 1 ≤ s.utf8ByteSize := by
  obtain ⟨first, rest, hs, -⟩ := mem_grammar.1 h
  rw [Nat.one_le_iff_ne_zero]
  intro hzero
  obtain rfl := String.utf8ByteSize_eq_zero_iff.1 hzero
  cases hs

theorem quote_not_mem {cs : List Char} (h : cs ∈ grammar) : '"' ∉ cs := by
  obtain ⟨first, rest, rfl, hfirst, hrest⟩ := mem_grammar.1 h
  rw [List.mem_cons, not_or]
  constructor
  · rintro rfl
    exact absurd hfirst (by decide)
  · intro hmem
    exact absurd (hrest _ hmem) (by decide)

theorem firstBad_of_split {index : Nat} {before after : List Char} {c : Char}
    (hbefore : ∀ b ∈ before, isPart b = true) (hc : isPart c = false) :
    firstBad index (before ++ c :: after) = some (c, index + before.length) := by
  induction before generalizing index with
  | nil => simp [firstBad, hc]
  | cons b rest ih =>
    rw [List.forall_mem_cons] at hbefore
    rw [List.cons_append, firstBad, if_pos hbefore.1, ih hbefore.2, List.length_cons]
    congr 2
    omega

theorem exists_split_of_not_part {cs : List Char} (h : ¬∀ c ∈ cs, isPart c = true) :
    ∃ before c after, cs = before ++ c :: after ∧ (∀ b ∈ before, isPart b = true) ∧
      isPart c = false := by
  induction cs with
  | nil => exact absurd (by simp) h
  | cons c rest ih =>
    by_cases hc : isPart c = true
    · have hrest : ¬∀ c ∈ rest, isPart c = true := by simpa [hc] using h
      obtain ⟨before, d, after, rfl, hbefore, hd⟩ := ih hrest
      exact ⟨c :: before, d, after, rfl, List.forall_mem_cons.2 ⟨hc, hbefore⟩, hd⟩
    · exact ⟨[], c, rest, rfl, by simp, by simpa using hc⟩

theorem isPart_of_isStart {c : Char} (h : isStart c = true) : isPart c = true :=
  singleton_mem_part.1 (.inl (singleton_mem_start.2 h))

theorem ofString_of_refused {s : String} {first : Char} {rest : List Char}
    (hs : s.toList = first :: rest) (hshort : s.utf8ByteSize ≤ 64) (hfirst : isStart first = true)
    (hout : s.toList ∉ grammar) :
    ∃ before c after, s.toList = before ++ c :: after ∧ (∀ b ∈ before, isPart b = true) ∧
      isPart c = false ∧ ofString s = .error (.invalidChar c before.length) := by
  have hrest : ¬∀ c ∈ rest, isPart c = true := fun h =>
    hout (mem_grammar.2 ⟨first, rest, hs, hfirst, h⟩)
  obtain ⟨before, c, after, rfl, hbefore, hc⟩ := exists_split_of_not_part hrest
  refine ⟨first :: before, c, after, hs,
    List.forall_mem_cons.2 ⟨isPart_of_isStart hfirst, hbefore⟩, hc, ?_⟩
  have hlimit : ¬maxBytes < s.utf8ByteSize := Nat.not_lt.2 hshort
  have hfault : fault? s = some (.invalidChar c (before.length + 1)) := by
    simp [fault?, hs, hlimit, hfirst, firstBad_of_split hbefore hc, Nat.add_comm]
  rw [ofString, hfault, List.length_cons]

/-- The names are the words of the grammar of 1 to 64 bytes. They are kept as they are, so nothing
between the quotes ends them. A word of at most 64 bytes that begins as a name does and is not
accepted is refused for its first character outside the alphabet, with the number of characters
before it. -/
theorem names_are_words (s : String) :
    (∀ i, ofString s = .ok i ↔
      1 ≤ s.utf8ByteSize ∧ s.utf8ByteSize ≤ 64 ∧ s.toList ∈ grammar ∧ i = ⟨s⟩) ∧
    (∀ i, ofString s = .ok i → i.quoted.toList = '"' :: (s.toList ++ ['"']) ∧ '"' ∉ s.toList) ∧
    ∀ first ∈ s.toList.head?, [first] ∈ start → s.utf8ByteSize ≤ 64 → (ofString s).toBool = false →
      ∃ before c after, s.toList = before ++ c :: after ∧ (∀ b ∈ before, [b] ∈ part) ∧
        [c] ∉ part ∧ ofString s = .error (.invalidChar c before.length) := by
  have haccepts : ∀ i, ofString s = .ok i ↔
      1 ≤ s.utf8ByteSize ∧ s.utf8ByteSize ≤ 64 ∧ s.toList ∈ grammar ∧ i = ⟨s⟩ := by
    intro i
    rw [ofString_eq_ok_iff, fault?_eq_none_iff, admits_iff]
    constructor
    · rintro ⟨⟨hshort, hword⟩, rfl⟩
      exact ⟨one_le_of_mem_grammar hword, hshort, hword, rfl⟩
    · rintro ⟨-, hshort, hword, rfl⟩
      exact ⟨⟨hshort, hword⟩, rfl⟩
  refine ⟨haccepts, ?_, ?_⟩
  · intro i hi
    obtain ⟨-, -, hword, rfl⟩ := (haccepts i).1 hi
    exact ⟨by simp [quoted], quote_not_mem hword⟩
  · intro first hhead hfirst hshort hrefused
    obtain ⟨rest, hs⟩ : ∃ rest, s.toList = first :: rest := List.head?_eq_some_iff.1 hhead
    have hout : s.toList ∉ grammar := by
      intro hword
      rw [(haccepts ⟨s⟩).2 ⟨one_le_of_mem_grammar hword, hshort, hword, rfl⟩] at hrefused
      cases hrefused
    obtain ⟨before, c, after, hsplit, hbefore, hc, herror⟩ :=
      ofString_of_refused hs hshort (singleton_mem_start.1 hfirst) hout
    refine ⟨before, c, after, hsplit, fun b hb => singleton_mem_part.2 (hbefore b hb), ?_, herror⟩
    rw [singleton_mem_part, hc]
    exact Bool.false_ne_true

/-- A name that goes on with letters of other alphabets, in 8 bytes and 6 characters. -/
theorem names_are_words_accented :
    ofString "_t2éö;" = .error (.invalidChar 'é' 3) ∧ "_t2éö;".utf8ByteSize = 8 ∧
      ∃ before c after, "_t2éö;".toList = before ++ c :: after ∧ (∀ b ∈ before, [b] ∈ part) ∧
        [c] ∉ part ∧ ofString "_t2éö;" = .error (.invalidChar c before.length) := by
  have hrefused : ofString "_t2éö;" = .error (.invalidChar 'é' 3) := by decide +kernel
  refine ⟨hrefused, by decide +kernel, ?_⟩
  exact (names_are_words "_t2éö;").2.2 '_' (by decide +kernel)
    (singleton_mem_start.2 (by decide)) (by decide +kernel) (by rw [hrefused]; rfl)

end NestedSet.Identifier
