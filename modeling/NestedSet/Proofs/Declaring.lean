import Mathlib
import NestedSet.Schema.Definition
import NestedSet.Proofs.Validation

/-!
# What the declaration of a table declares

The declared types of the payload are put into the declaration as they are. The
declaration has one element for each column if every type keeps to its element,
that is, if its parentheses close and enclose its commas; and as the columns are
the only quoted names of the body, it has these elements only then.
-/

set_option autoImplicit false

namespace NestedSet

/-! ### Parentheses and commas -/

namespace Text

def depthAfter (depth : Nat) (c : Char) : Nat :=
  if c = '(' then depth + 1 else if c = ')' then depth - 1 else depth

/-- The text comes back to depth zero, and none of the barred characters stands at depth zero. -/
def Closes (barred : List Char) : Nat → List Char → Prop
  | depth, [] => depth = 0
  | depth, c :: rest => (c ∈ barred → 0 < depth) ∧ Closes barred (depthAfter depth c) rest

instance decidableCloses (barred : List Char) :
    (depth : Nat) → (text : List Char) → Decidable (Closes barred depth text)
  | depth, [] => inferInstanceAs (Decidable (depth = 0))
  | depth, c :: rest =>
    have := decidableCloses barred (depthAfter depth c) rest
    inferInstanceAs (Decidable (_ ∧ _))

def Balanced (text : List Char) : Prop := Closes [')'] 0 text

/-- The parentheses are balanced, and no comma stands outside them. -/
def KeepsSlot (text : List Char) : Prop := Closes [')', ','] 0 text

instance (text : List Char) : Decidable (KeepsSlot text) := decidableCloses _ _ _

/-- The parts of a text between the commas that no parenthesis encloses. -/
def elements : Nat → List Char → List (List Char)
  | _, [] => [[]]
  | depth, c :: rest =>
    if c = ',' ∧ depth = 0 then [] :: elements 0 rest
    else (elements (depthAfter depth c) rest).modifyHead (c :: ·)

def Plain (barred text : List Char) : Prop := ∀ c ∈ text, c ≠ '(' ∧ c ≠ ')' ∧ c ∉ barred

variable {barred : List Char} {depth : Nat} {text : List Char}

theorem closes_append {rest : List Char} {outer : Nat} (hbarred : ')' ∈ barred)
    (h : Closes barred depth text) (hrest : Closes barred outer rest) :
    Closes barred (depth + outer) (text ++ rest) := by
  induction text generalizing depth with
  | nil =>
    obtain rfl : depth = 0 := h
    rwa [Nat.zero_add]
  | cons c text ih =>
    have hdepth : depthAfter (depth + outer) c = depthAfter depth c + outer := by
      by_cases hclose : c = ')'
      · subst hclose
        have hpos := h.1 hbarred
        simp [depthAfter]
        omega
      · by_cases hopen : c = '(' <;> simp [depthAfter, hopen, hclose]
        omega
    refine ⟨fun hc => Nat.add_pos_left (h.1 hc) outer, ?_⟩
    rw [hdepth]
    exact ih h.2

theorem closes_plain_append {before : List Char} (h : Plain barred before) :
    Closes barred depth (before ++ text) ↔ Closes barred depth text := by
  induction before with
  | nil => rfl
  | cons c before ih =>
    obtain ⟨⟨hopen, hclose, hbarred⟩, hbefore⟩ := List.forall_mem_cons.1 h
    have hdepth : depthAfter depth c = depth := by simp [depthAfter, hopen, hclose]
    rw [List.cons_append, Closes, hdepth, ih hbefore]
    simp [hbarred]

theorem closes_append_plain {after : List Char} (h : Plain barred after) :
    Closes barred depth (text ++ after) ↔ Closes barred depth text := by
  induction text generalizing depth with
  | nil =>
    have hplain : Closes barred depth (after ++ []) ↔ Closes barred depth [] :=
      closes_plain_append h
    rwa [List.append_nil] at hplain
  | cons c text ih => rw [List.cons_append, Closes, Closes, ih]

theorem elements_append_comma {rest : List Char} (h : Closes [')', ','] depth text) :
    elements depth (text ++ ',' :: rest) = text :: elements 0 rest := by
  induction text generalizing depth with
  | nil =>
    obtain rfl : depth = 0 := h
    simp [elements]
  | cons c text ih =>
    have hinside : ¬(c = ',' ∧ depth = 0) := by
      rintro ⟨rfl, rfl⟩
      exact absurd (h.1 (by simp)) (Nat.lt_irrefl 0)
    rw [List.cons_append, elements, if_neg hinside, ih h.2, List.modifyHead_cons]

theorem elements_eq_singleton (h : Closes [')', ','] depth text) :
    elements depth text = [text] := by
  induction text generalizing depth with
  | nil => rfl
  | cons c text ih =>
    have hinside : ¬(c = ',' ∧ depth = 0) := by
      rintro ⟨rfl, rfl⟩
      exact absurd (h.1 (by simp)) (Nat.lt_irrefl 0)
    rw [elements, if_neg hinside, ih h.2, List.modifyHead_cons]

theorem elements_intercalate {texts : List (List Char)} (hne : texts ≠ [])
    (h : ∀ text ∈ texts, KeepsSlot text) : elements 0 ([','].intercalate texts) = texts := by
  induction texts with
  | nil => exact absurd rfl hne
  | cons text rest ih =>
    obtain ⟨htext, hrest⟩ := List.forall_mem_cons.1 h
    cases rest with
    | nil => simpa using elements_eq_singleton htext
    | cons next rest =>
      have hsplit : [','].intercalate (text :: next :: rest) =
          text ++ ',' :: [','].intercalate (next :: rest) := by simp
      rw [hsplit, elements_append_comma htext, ih (by simp) hrest]

theorem exists_elements (depth : Nat) (text : List Char) :
    ∃ first rest, elements depth text = first :: rest := by
  induction text generalizing depth with
  | nil => exact ⟨_, _, rfl⟩
  | cons c text ih =>
    rw [elements]
    split
    · exact ⟨_, _, rfl⟩
    · obtain ⟨first, rest, h⟩ := ih (depthAfter depth c)
      exact ⟨c :: first, rest, by rw [h, List.modifyHead_cons]⟩

theorem intercalate_elements (depth : Nat) (text : List Char) :
    [','].intercalate (elements depth text) = text := by
  induction text generalizing depth with
  | nil => rfl
  | cons c text ih =>
    rw [elements]
    split
    · rename_i h
      obtain ⟨first, rest, hel⟩ := exists_elements 0 text
      have hrest := ih 0
      rw [hel] at hrest ⊢
      simp [h.1, hrest]
    · obtain ⟨first, rest, hel⟩ := exists_elements (depthAfter depth c) text
      have hrest := ih (depthAfter depth c)
      rw [hel] at hrest ⊢
      cases rest <;> simpa using hrest

theorem closes_elements {first : List Char} {rest : List (List Char)}
    (h : Closes [')'] depth text) (hel : elements depth text = first :: rest) :
    Closes [')', ','] depth first ∧ ∀ element ∈ rest, KeepsSlot element := by
  induction text generalizing depth first rest with
  | nil =>
    cases hel
    exact ⟨h, fun _ he => absurd he List.not_mem_nil⟩
  | cons c text ih =>
    rw [elements] at hel
    split at hel
    · rename_i hcomma
      obtain ⟨rfl, rfl⟩ := hcomma
      obtain ⟨rfl, rfl⟩ := List.cons_eq_cons.1 hel
      obtain ⟨next, others, hnext⟩ := exists_elements 0 text
      rw [hnext]
      exact ⟨rfl, List.forall_mem_cons.2 (ih h.2 hnext)⟩
    · rename_i hinside
      obtain ⟨next, others, hnext⟩ := exists_elements (depthAfter depth c) text
      obtain ⟨hfirst, hrest⟩ := ih h.2 hnext
      rw [hnext, List.modifyHead_cons] at hel
      obtain ⟨rfl, rfl⟩ := List.cons_eq_cons.1 hel
      refine ⟨⟨fun hc => ?_, hfirst⟩, hrest⟩
      rcases List.mem_cons.1 hc with rfl | hc
      · exact h.1 List.mem_cons_self
      · obtain rfl := List.mem_singleton.1 hc
        exact Nat.pos_of_ne_zero fun hzero => hinside ⟨rfl, hzero⟩

theorem keepsSlot_of_mem_elements (h : Balanced text) :
    ∀ element ∈ elements 0 text, KeepsSlot element := by
  obtain ⟨first, rest, hel⟩ := exists_elements 0 text
  rw [hel]
  exact List.forall_mem_cons.2 (closes_elements h hel)

theorem Closes.mono {fewer : List Char} (h : Closes barred depth text)
    (hfewer : ∀ c ∈ fewer, c ∈ barred) : Closes fewer depth text := by
  induction text generalizing depth with
  | nil => exact h
  | cons c text ih => exact ⟨fun hc => h.1 (hfewer c hc), ih h.2⟩

theorem balanced_intercalate {texts : List (List Char)} (h : ∀ text ∈ texts, KeepsSlot text) :
    Balanced ([','].intercalate texts) := by
  induction texts with
  | nil => rfl
  | cons text rest ih =>
    obtain ⟨htext, hrest⟩ := List.forall_mem_cons.1 h
    have hbalanced : Balanced text := htext.mono (by simp)
    cases rest with
    | nil => simpa using hbalanced
    | cons next rest =>
      have hcomma : Balanced (',' :: [','].intercalate (next :: rest)) := ⟨by simp, ih hrest⟩
      have hsplit : [','].intercalate (text :: next :: rest) =
          text ++ ',' :: [','].intercalate (next :: rest) := by simp
      rw [hsplit]
      exact closes_append (by simp) hbalanced hcomma

/-! ### Quoted names -/

def StartsWith (element : List Char) (column : Identifier) : Prop :=
  ∃ gap rest, element = gap ++ column.quoted.toList ++ rest ∧ ∀ c ∈ gap, c ∈ [' ', '\n']

def QuotesOnly (element : List Char) (column : Identifier) : Prop :=
  ∃ gap rest, element = gap ++ column.quoted.toList ++ rest ∧ (∀ c ∈ gap, c ∈ [' ', '\n']) ∧
    '"' ∉ rest

theorem toList_quoted (column : Identifier) :
    column.quoted.toList = '"' :: column.name.toList ++ ['"'] := by
  simp [Identifier.quoted]

theorem QuotesOnly.startsWith {element : List Char} {column : Identifier}
    (h : QuotesOnly element column) : StartsWith element column := by
  obtain ⟨gap, rest, hsplit, hgap, -⟩ := h
  exact ⟨gap, rest, hsplit, hgap⟩

theorem not_mem_gap {gap : List Char} {c : Char} (h : ∀ c ∈ gap, c ∈ [' ', '\n'])
    (hc : c ∉ [' ', '\n']) : c ∉ gap := fun hmem => hc (h c hmem)

theorem intercalate_cons_cons (first next : List Char) (rest : List (List Char)) :
    [','].intercalate (first :: next :: rest) =
      first ++ ',' :: [','].intercalate (next :: rest) := by
  simp

theorem split_unique {before before' after after' : List Char} {c : Char} (h : c ∉ before)
    (h' : c ∉ before') (heq : before ++ c :: after = before' ++ c :: after') :
    before = before' ∧ after = after' := by
  induction before generalizing before' with
  | nil =>
    cases before' with
    | nil => exact ⟨rfl, (List.cons_eq_cons.1 heq).2⟩
    | cons d before' =>
      obtain ⟨rfl, -⟩ := List.cons_eq_cons.1 heq
      exact absurd List.mem_cons_self h'
  | cons d before ih =>
    cases before' with
    | nil =>
      obtain ⟨rfl, -⟩ := List.cons_eq_cons.1 heq
      exact absurd List.mem_cons_self h
    | cons d' before' =>
      obtain ⟨rfl, hrest⟩ := List.cons_eq_cons.1 heq
      obtain ⟨rfl, rfl⟩ :=
        ih (List.not_mem_of_not_mem_cons h) (List.not_mem_of_not_mem_cons h') hrest
      exact ⟨rfl, rfl⟩

theorem two_le_quotes {element : List Char} {column : Identifier} (h : StartsWith element column) :
    2 ≤ element.count '"' := by
  obtain ⟨gap, rest, rfl, -⟩ := h
  rw [toList_quoted]
  simp only [List.count_append, List.count_cons_self]
  omega

theorem quotes_eq_two {element : List Char} {column : Identifier} (h : QuotesOnly element column)
    (hname : '"' ∉ column.name.toList) : element.count '"' = 2 := by
  obtain ⟨gap, rest, rfl, hgap, hrest⟩ := h
  have hgap0 : gap.count '"' = 0 := List.count_eq_zero.2 (not_mem_gap hgap (by decide))
  rw [toList_quoted]
  simp only [List.count_append, List.cons_append, List.count_cons_self, List.count_nil, hgap0,
    List.count_eq_zero.2 hname, List.count_eq_zero.2 hrest]

theorem le_quotes_intercalate {texts : List (List Char)} {columns : List Identifier}
    (h : List.Forall₂ StartsWith texts columns) :
    2 * columns.length ≤ ([','].intercalate texts).count '"' := by
  induction h with
  | nil => exact Nat.zero_le _
  | @cons text column texts columns htext hrest ih =>
    have htwo := two_le_quotes htext
    cases texts with
    | nil =>
      cases hrest
      simpa using htwo
    | cons next rest =>
      rw [intercalate_cons_cons, List.count_append, List.count_cons_of_ne (by decide),
        List.length_cons]
      omega

theorem quotes_intercalate {texts : List (List Char)} {columns : List Identifier}
    (h : List.Forall₂ QuotesOnly texts columns) (hnames : ∀ c ∈ columns, '"' ∉ c.name.toList) :
    ([','].intercalate texts).count '"' = 2 * columns.length := by
  induction h with
  | nil => rfl
  | @cons text column texts columns htext hrest ih =>
    obtain ⟨hname, hnames⟩ := List.forall_mem_cons.1 hnames
    have htwo := quotes_eq_two htext hname
    cases texts with
    | nil =>
      cases hrest
      simpa using htwo
    | cons next rest =>
      rw [intercalate_cons_cons, List.count_append, List.count_cons_of_ne (by decide),
        List.length_cons, ih hnames]
      omega

theorem exists_gap_intercalate {text : List Char} {texts : List (List Char)} {column : Identifier}
    (h : StartsWith text column) :
    ∃ gap rest, [','].intercalate (text :: texts) = gap ++ '"' :: rest ∧
      ∀ c ∈ gap, c ∈ [' ', '\n'] := by
  obtain ⟨gap, rest, rfl, hgap⟩ := h
  rw [toList_quoted]
  cases texts with
  | nil => exact ⟨gap, column.name.toList ++ ['"'] ++ rest, by simp, hgap⟩
  | cons next texts =>
    exact ⟨gap, column.name.toList ++ ['"'] ++ rest ++ ',' :: [','].intercalate (next :: texts),
      by simp, hgap⟩

/-- Between two quoted names with no other quotes, the last comma stands at one place only. -/
theorem slot_unique {gap gap' tail tail' after after' : List Char} {column : Identifier}
    (hgap : '"' ∉ gap) (hgap' : '"' ∉ gap') (htail : '"' ∉ tail) (htail' : '"' ∉ tail')
    (hafter : ∃ g x, after = g ++ '"' :: x ∧ ∀ c ∈ g, c ∈ [' ', '\n'])
    (hafter' : ∃ g x, after' = g ++ '"' :: x ∧ ∀ c ∈ g, c ∈ [' ', '\n'])
    (h : gap ++ column.quoted.toList ++ tail ++ ',' :: after =
      gap' ++ column.quoted.toList ++ tail' ++ ',' :: after') :
    gap = gap' ∧ tail = tail' ∧ after = after' := by
  obtain ⟨g, x, rfl, hg⟩ := hafter
  obtain ⟨g', x', rfl, hg'⟩ := hafter'
  rw [toList_quoted] at h
  simp only [List.append_assoc, List.cons_append] at h
  obtain ⟨rfl, hrest⟩ := split_unique hgap hgap' h
  have hrest := List.append_cancel_left hrest
  simp only [List.nil_append, List.cons.injEq, true_and] at hrest
  have hcomma {t : List Char} {g : List Char} (ht : '"' ∉ t)
      (hg : ∀ c ∈ g, c ∈ [' ', '\n']) : '"' ∉ t ++ ',' :: g := by
    simp [ht, not_mem_gap hg]
  have hrest : (tail ++ ',' :: g) ++ '"' :: x = (tail' ++ ',' :: g') ++ '"' :: x' := by
    simpa using hrest
  obtain ⟨hbefore, rfl⟩ := split_unique (hcomma htail hg) (hcomma htail' hg') hrest
  -- The last comma is the first one from behind, for white space has none.
  have hback : g.reverse ++ ',' :: tail.reverse = g'.reverse ++ ',' :: tail'.reverse := by
    simpa using congrArg List.reverse hbefore
  have hnone {g : List Char} (hg : ∀ c ∈ g, c ∈ [' ', '\n']) : ',' ∉ g.reverse := by
    simpa using not_mem_gap hg (by decide)
  obtain ⟨hgs, htails⟩ := split_unique (hnone hg) (hnone hg') hback
  obtain rfl := List.reverse_inj.1 hgs
  exact ⟨rfl, List.reverse_inj.1 htails, rfl⟩

/-- If a text is joined of elements that quote one name each, these are the only elements that
start with the names. -/
theorem elements_unique {texts slots : List (List Char)} {columns : List Identifier}
    (htexts : List.Forall₂ StartsWith texts columns)
    (hslots : List.Forall₂ QuotesOnly slots columns)
    (hnames : ∀ c ∈ columns, '"' ∉ c.name.toList)
    (h : [','].intercalate texts = [','].intercalate slots) : texts = slots := by
  induction htexts generalizing slots with
  | nil =>
    cases hslots
    rfl
  | @cons text column texts columns htext hrest ih =>
    obtain ⟨hname, hnames⟩ := List.forall_mem_cons.1 hnames
    cases hslots with
    | @cons slot _ slots _ hslot hslots =>
    cases hrest with
    | nil =>
      cases hslots
      simpa using h
    | @cons next column' texts columns hnext hrest =>
      cases hslots with
      | @cons slot' _ slots _ hslot' hslots =>
      rw [intercalate_cons_cons, intercalate_cons_cons] at h
      have hone : text.count '"' = 2 := by
        have hcount := congrArg (List.count '"') h
        have hfirst := two_le_quotes htext
        have hothers := le_quotes_intercalate (.cons hnext hrest)
        rw [List.count_append, List.count_append, List.count_cons_of_ne (by decide),
          List.count_cons_of_ne (by decide), quotes_intercalate (.cons hslot' hslots) hnames,
          quotes_eq_two hslot hname] at hcount
        omega
      obtain ⟨gap, tail, rfl, hgap⟩ := htext
      have htail : '"' ∉ tail := by
        rw [toList_quoted] at hone
        simp only [List.count_append, List.cons_append, List.count_cons_self] at hone
        exact List.count_eq_zero.1 (by omega)
      obtain ⟨gap', tail', rfl, hgap', htail'⟩ := hslot
      obtain ⟨rfl, rfl, hafter⟩ := slot_unique (not_mem_gap hgap (by decide))
        (not_mem_gap hgap' (by decide)) htail htail' (exists_gap_intercalate hnext)
        (exists_gap_intercalate hslot'.startsWith) h
      rw [ih (.cons hslot' hslots) hnames hafter]

end Text

/-! ### The declaration of a table -/

namespace Schema

open Text

def lines : List String → List (List Char)
  | [] => []
  | [d] => [['\n', ' ', ' '] ++ d.toList ++ ['\n']]
  | d :: next :: rest => (['\n', ' ', ' '] ++ d.toList) :: lines (next :: rest)

theorem lines_intercalate (d : String) (rest : List String) :
    [','].intercalate (lines (d :: rest)) =
      ['\n', ' ', ' '] ++ [',', '\n', ' ', ' '].intercalate ((d :: rest).map String.toList) ++
        ['\n'] := by
  induction rest generalizing d with
  | nil => simp [lines]
  | cons next rest ih =>
    have hlines : ∃ first others, lines (next :: rest) = first :: others := by
      cases rest <;> exact ⟨_, _, rfl⟩
    obtain ⟨first, others, hfirst⟩ := hlines
    have hnext := ih next
    rw [lines]
    rw [hfirst] at hnext ⊢
    rw [intercalate_cons_cons, hnext]
    simp

theorem toList_body {ds : List String} (hne : ds ≠ []) :
    (body ds).toList = [','].intercalate (lines ds) := by
  obtain ⟨d, rest, rfl⟩ := List.exists_cons_of_ne_nil hne
  rw [lines_intercalate]
  simp [body, String.toList_intercalate]

theorem keepsSlot_line {d after : List Char} (hafter : after = [] ∨ after = ['\n']) :
    KeepsSlot (['\n', ' ', ' '] ++ d ++ after) ↔ KeepsSlot d := by
  have hbefore : Plain [')', ','] ['\n', ' ', ' '] := by simp [Plain]
  have hend : Plain [')', ','] after := by
    rcases hafter with rfl | rfl <;> simp [Plain]
  rw [KeepsSlot, closes_append_plain hend, closes_plain_append hbefore, KeepsSlot]

theorem keepsSlot_lines {ds : List String} :
    (∀ line ∈ lines ds, KeepsSlot line) ↔ ∀ d ∈ ds, KeepsSlot d.toList := by
  induction ds with
  | nil => simp [lines]
  | cons d rest ih =>
    cases rest with
    | nil =>
      simp only [lines, List.forall_mem_singleton]
      exact keepsSlot_line (.inr rfl)
    | cons next rest =>
      rw [lines, List.forall_mem_cons, List.forall_mem_cons, ih]
      have hline := keepsSlot_line (d := d.toList) (.inl rfl)
      rw [List.append_nil] at hline
      rw [hline]

/-- A declaration is the quoted name of its column and something with no quotes. -/
def IsDeclaration (d : String) (column : Identifier) : Prop :=
  ∃ rest, d.toList = column.quoted.toList ++ rest ∧ '"' ∉ rest

theorem quotesOnly_line {d : String} {column : Identifier} {after : List Char}
    (h : IsDeclaration d column) (hafter : '"' ∉ after) :
    QuotesOnly (['\n', ' ', ' '] ++ d.toList ++ after) column := by
  obtain ⟨rest, hd, hrest⟩ := h
  exact ⟨['\n', ' ', ' '], rest ++ after, by simp [hd], by simp, by simp [hrest, hafter]⟩

theorem quotesOnly_lines {ds : List String} {columns : List Identifier}
    (h : List.Forall₂ IsDeclaration ds columns) :
    List.Forall₂ QuotesOnly (lines ds) columns := by
  induction h with
  | nil => exact .nil
  | @cons d column ds columns hd hrest ih =>
    cases hrest with
    | nil => exact .cons (quotesOnly_line hd (by simp)) .nil
    | cons hnext hrest =>
      have hline : QuotesOnly (['\n', ' ', ' '] ++ d.toList ++ []) column :=
        quotesOnly_line hd List.not_mem_nil
      rw [List.append_nil] at hline
      exact .cons hline ih

def fixedDeclarations (s : Schema) : List (Identifier × String) :=
  [(s.id, s.idDeclaration), (s.left, "INTEGER NOT NULL"), (s.right, "INTEGER NOT NULL"),
    (s.parent, "INTEGER")] ++
  (s.partition.map fun p => (p.column, partitionDeclaration p.key)).toList

theorem columnDeclarations_eq (s : Schema) :
    s.columnDeclarations = s.fixedDeclarations.map (fun d => d.1.quoted ++ " " ++ d.2) ++
      s.fields.map fieldDeclaration := by
  unfold columnDeclarations fixedDeclarations
  cases s.partition <;> simp [String.append_assoc]

theorem columns_eq_fixed (s : Schema) :
    s.columns = s.fixedDeclarations.map (·.1) ++ s.fields.map (·.column) := by
  unfold columns structuralColumns fixedDeclarations
  cases s.partition <;> simp

theorem plain_of_mem_fixed {s : Schema} {d : Identifier × String} (hd : d ∈ s.fixedDeclarations) :
    Plain ['"', ','] d.2.toList := by
  simp only [fixedDeclarations, List.mem_append, List.mem_cons, List.not_mem_nil, or_false,
    Option.mem_toList, Option.map_eq_some_iff] at hd
  rcases hd with (rfl | rfl | rfl | rfl) | ⟨p, -, rfl⟩
  · cases hids : s.ids <;> simp [idDeclaration, hids, Plain]
  · simp [Plain]
  · simp [Plain]
  · simp [Plain]
  · cases p.key <;> simp [partitionDeclaration, Plain]

theorem length_columns (s : Schema) :
    s.columns.length = 4 + s.partition.toList.length + s.fields.length := by
  simp only [columns, structuralColumns, List.length_append, List.length_map,
    List.length_cons, List.length_nil]
  cases s.partition <;> rfl

def opening (s : Schema) : String := "CREATE TABLE " ++ s.table.quoted ++ " "

theorem toList_tableDefinition (s : Schema) :
    s.tableDefinition.toList =
      s.opening.toList ++ '(' :: [','].intercalate (lines s.columnDeclarations) ++ [')'] := by
  have hne : s.columnDeclarations ≠ [] := by simp [columnDeclarations]
  unfold tableDefinition opening
  generalize "CREATE TABLE " ++ s.table.quoted = head
  simp [toList_body hne]

end Schema

/-! ### Checked names and types -/

namespace Mapping

open Text

variable {m : Mapping} {s : Schema}

theorem isPart_of_admits {name : String} (h : Identifier.Admits name) :
    ∀ c ∈ name.toList, c.isAlphanum = true ∨ c = '_' := by
  obtain ⟨-, first, rest, htext, hfirst, hrest⟩ := h
  rw [htext]
  refine List.forall_mem_cons.2 ⟨hfirst.imp_left fun h => ?_, hrest⟩
  simp [Char.isAlphanum, h]

theorem ne_of_isPart {c d : Char} (h : c.isAlphanum = true ∨ c = '_')
    (hd : d.isAlphanum = false ∧ d ≠ '_') : c ≠ d := by
  rintro rfl
  rcases h with h | h
  · rw [hd.1] at h
    cases h
  · exact hd.2 h

theorem isPart_of_mem_columns (h : m.validate = .ok s) {column : Identifier}
    (hc : column ∈ s.columns) : ∀ c ∈ column.name.toList, c.isAlphanum = true ∨ c = '_' := by
  obtain ⟨hvalid, hs⟩ := validate_eq_ok_iff.1 h
  rw [hs.columns_eq] at hc
  obtain ⟨name, hname, rfl⟩ := List.mem_map.1 hc
  exact isPart_of_admits (hvalid.columns name hname)

theorem quote_not_mem_type (h : m.validate = .ok s) {f : Field} (hf : f ∈ s.fields) {type : String}
    (htype : type ∈ f.sqlType) : '"' ∉ type.toList := by
  obtain ⟨hvalid, hs⟩ := validate_eq_ok_iff.1 h
  rw [hs.fields] at hf
  obtain ⟨spec, hspec, rfl⟩ := List.mem_map.1 hf
  obtain ⟨d, hd, rfl⟩ := Option.map_eq_some_iff.1 htype
  obtain ⟨core, htrims, -, hcore⟩ := hvalid.types spec hspec d hd
  have hcoreEq : (Text.trim d).toList = core := by
    rw [Text.trim, String.toList_ofList]
    exact (Text.trims_iff.1 htrims).symm
  rw [hcoreEq]
  intro hquote
  rcases hcore _ hquote with hquote | hquote
  · exact absurd hquote (by decide)
  · exact absurd hquote (by decide)

theorem plain_quoted {i : Identifier} (h : ∀ c ∈ i.name.toList, c.isAlphanum = true ∨ c = '_') :
    Plain [')', ','] i.quoted.toList := by
  rw [toList_quoted]
  intro c hmem
  simp only [List.cons_append, List.mem_cons, List.mem_append, List.not_mem_nil, or_false] at hmem
  rcases hmem with rfl | hmem | rfl
  · decide
  · have hopen : c ≠ '(' := ne_of_isPart (h c hmem) (by decide)
    have hclose : c ≠ ')' := ne_of_isPart (h c hmem) (by decide)
    have hcomma : c ≠ ',' := ne_of_isPart (h c hmem) (by decide)
    exact ⟨hopen, hclose, by simp [hclose, hcomma]⟩
  · decide

theorem isDeclaration_columns (h : m.validate = .ok s) :
    List.Forall₂ Schema.IsDeclaration s.columnDeclarations s.columns := by
  rw [Schema.columnDeclarations_eq, Schema.columns_eq_fixed]
  refine List.rel_append ?_ ?_
  · rw [List.forall₂_map_left_iff, List.forall₂_map_right_iff, List.forall₂_same]
    intro d hd
    refine ⟨' ' :: d.2.toList, by simp, ?_⟩
    have hquote : '"' ∉ d.2.toList :=
      fun hmem => (Schema.plain_of_mem_fixed hd _ hmem).2.2 (by simp)
    simpa using hquote
  · rw [List.forall₂_map_left_iff, List.forall₂_map_right_iff, List.forall₂_same]
    intro f hf
    unfold Schema.fieldDeclaration
    cases htype : f.sqlType with
    | none => exact ⟨[], by simp, List.not_mem_nil⟩
    | some type =>
      refine ⟨' ' :: type.toList, by simp, ?_⟩
      simpa using quote_not_mem_type h hf htype

theorem keepsSlot_declarations (h : m.validate = .ok s) :
    (∀ d ∈ s.columnDeclarations, KeepsSlot d.toList) ↔
      ∀ f ∈ s.fields, ∀ type ∈ f.sqlType, KeepsSlot type.toList := by
  have hdeclared {column : Identifier} (hc : column ∈ s.columns) (rest : List Char) :
      KeepsSlot (column.quoted.toList ++ rest) ↔ KeepsSlot rest :=
    closes_plain_append (plain_quoted (isPart_of_mem_columns h hc))
  have hspace (type : List Char) : KeepsSlot (' ' :: type) ↔ KeepsSlot type :=
    closes_plain_append (show Plain [')', ','] [' '] by simp [Plain])
  have hfixed : ∀ d ∈ s.fixedDeclarations, KeepsSlot (d.1.quoted ++ " " ++ d.2).toList := by
    intro d hd
    have hcolumn : d.1 ∈ s.columns := by
      rw [Schema.columns_eq_fixed]
      exact List.mem_append_left _ (List.mem_map_of_mem hd)
    have htype : Plain [')', ','] d.2.toList := fun c hc => by
      obtain ⟨hopen, hclose, hother⟩ := Schema.plain_of_mem_fixed hd c hc
      simp_all
    have hsplit : (d.1.quoted ++ " " ++ d.2).toList = d.1.quoted.toList ++ ' ' :: d.2.toList := by
      simp
    rw [hsplit, hdeclared hcolumn, hspace]
    have hplain : KeepsSlot ([] ++ d.2.toList) := (closes_append_plain htype).2 rfl
    exact hplain
  have hfield : ∀ f ∈ s.fields, (KeepsSlot (Schema.fieldDeclaration f).toList ↔
      ∀ type ∈ f.sqlType, KeepsSlot type.toList) := by
    intro f hf
    have hcolumn : f.column ∈ s.columns := List.mem_append_right _ (List.mem_map_of_mem hf)
    unfold Schema.fieldDeclaration
    cases htype : f.sqlType with
    | none =>
      have hnone : KeepsSlot f.column.quoted.toList := by
        rw [← List.append_nil f.column.quoted.toList, hdeclared hcolumn]
        rfl
      simpa using hnone
    | some type =>
      have hsplit : (f.column.quoted ++ " " ++ type).toList =
          f.column.quoted.toList ++ ' ' :: type.toList := by simp
      simp only [hsplit, hdeclared hcolumn, hspace, Option.mem_some_iff, forall_eq']
  rw [Schema.columnDeclarations_eq, List.forall_mem_append, List.forall_mem_map,
    List.forall_mem_map]
  constructor
  · rintro ⟨-, hfields⟩ f hf
    exact (hfield f hf).1 (hfields f hf)
  · intro htypes
    exact ⟨hfixed, fun f hf => (hfield f hf).2 (htypes f hf)⟩

end Mapping

/-- The statement is balanced, and what its outer parentheses enclose has one element for each
column of the schema, in the order of the columns, that starts with the name of the column. -/
def Schema.IsDeclared (s : Schema) : Prop :=
  Text.Balanced s.tableDefinition.toList ∧ ∃ before body,
    s.tableDefinition.toList = before ++ '(' :: body ++ [')'] ∧ '(' ∉ before ∧ ')' ∉ before ∧
      Text.Balanced body ∧
      (Text.elements 0 body).length = 4 + s.partition.toList.length + s.fields.length ∧
      List.Forall₂ Text.StartsWith (Text.elements 0 body) s.columns

namespace Mapping

open Text

variable {m : Mapping} {s : Schema}

theorem plain_opening (h : m.validate = .ok s) : Plain [')', ','] s.opening.toList := by
  obtain ⟨hvalid, hs⟩ := validate_eq_ok_iff.1 h
  have htable : ∀ c ∈ s.table.name.toList, c.isAlphanum = true ∨ c = '_' := by
    rw [hs.table]
    exact isPart_of_admits hvalid.table
  have hcreate : Plain [')', ','] "CREATE TABLE ".toList := by simp [Plain]
  have hspace : Plain [')', ','] " ".toList := by simp [Plain]
  unfold Schema.opening
  rw [String.toList_append, String.toList_append]
  intro c hc
  rcases (List.mem_append.1 hc).imp_left List.mem_append.1 with (hc | hc) | hc
  · exact hcreate c hc
  · exact plain_quoted htable c hc
  · exact hspace c hc

/-- A checked schema is declared exactly if the declared types keep to their elements. -/
theorem isDeclared_iff (h : m.validate = .ok s) :
    s.IsDeclared ↔ ∀ f ∈ s.fields, ∀ type ∈ f.sqlType, KeepsSlot type.toList := by
  rw [← keepsSlot_declarations h, ← Schema.keepsSlot_lines]
  have hslots : List.Forall₂ QuotesOnly (Schema.lines s.columnDeclarations) s.columns :=
    Schema.quotesOnly_lines (isDeclaration_columns h)
  have hopening := plain_opening h
  have hnone : '(' ∉ s.opening.toList := fun hmem => (hopening _ hmem).1 rfl
  constructor
  · rintro ⟨-, before, body, hsplit, hopen, hclose, hbalanced, -, hstarts⟩
    have hnames : ∀ c ∈ s.columns, '"' ∉ c.name.toList := fun c hc hquote =>
      ne_of_isPart (isPart_of_mem_columns h hc _ hquote) (by decide) rfl
    rw [Schema.toList_tableDefinition, List.append_assoc, List.append_assoc] at hsplit
    obtain ⟨-, hbody⟩ := split_unique hnone hopen hsplit
    have hbody := List.append_cancel_right hbody
    rw [← intercalate_elements 0 body] at hbody
    rw [← elements_unique hstarts hslots hnames hbody.symm]
    exact keepsSlot_of_mem_elements hbalanced
  · intro hkeeps
    have hne : Schema.lines s.columnDeclarations ≠ [] := by
      rw [← List.length_pos_iff, hslots.length_eq, Schema.length_columns]
      omega
    have hbalanced := balanced_intercalate hkeeps
    have helements := elements_intercalate hne hkeeps
    refine ⟨?_, _, _, Schema.toList_tableDefinition s, hnone, fun hmem => (hopening _ hmem).2.1 rfl,
      hbalanced, ?_, ?_⟩
    · have hinside : Closes [')'] (0 + 1) (_ ++ [')']) :=
        closes_append (by simp) hbalanced ⟨fun _ => Nat.one_pos, rfl⟩
      have houter : Balanced ('(' :: ([','].intercalate (Schema.lines s.columnDeclarations) ++
          [')'])) := ⟨by simp, hinside⟩
      have hbefore : Plain [')'] s.opening.toList := fun c hc => by
        obtain ⟨hopen, hclose, -⟩ := hopening c hc
        simp [hopen, hclose]
      rw [Schema.toList_tableDefinition, List.append_assoc]
      exact (closes_plain_append hbefore).2 houter
    · rw [helements, hslots.length_eq, Schema.length_columns]
    · rw [helements]
      exact hslots.imp fun _ _ => QuotesOnly.startsWith

/-! ### The names of what is created -/

theorem fold_append (a b : String) : Text.fold (a ++ b) = Text.fold a ++ Text.fold b := by
  apply String.toList_injective
  simp [Text.fold]

def indexSuffixes : List String := ["_left_idx", "_right_idx", "_parent_idx"]

theorem indexNames_eq (s : Schema) :
    s.indexes.map (fun i => Text.fold i.1) = indexSuffixes.map (s.table.key ++ ·) := by
  have hsuffix (side suffix : String) (h : Text.fold ("_" ++ side ++ "_idx") = suffix) :
      Text.fold (s.indexName side) = s.table.key ++ suffix := by
    rw [← h, Identifier.key, ← fold_append, ← String.append_assoc, ← String.append_assoc]
    rfl
  have hleft := hsuffix "left" "_left_idx" (by decide +kernel)
  have hright := hsuffix "right" "_right_idx" (by decide +kernel)
  have hparent := hsuffix "parent" "_parent_idx" (by decide +kernel)
  simp [Schema.indexes, indexSuffixes, hleft, hright, hparent]

theorem nodup_indexNames (s : Schema) :
    (s.table.key :: s.indexes.map fun i => Text.fold i.1).Nodup := by
  have hinj : Function.Injective (s.table.key ++ ·) := fun _ _ h => String.append_right_inj _ |>.1 h
  have hsuffixes : ("" :: indexSuffixes).Nodup := by decide +kernel
  have hempty : s.table.key ++ "" = s.table.key := String.append_empty
  rw [indexNames_eq]
  simpa [hempty] using hsuffixes.map hinj

/-- The names created by a checked schema are apart if its sequence is named as no index is. -/
theorem nodup_objectNames_iff (h : m.validate = .ok s) :
    (s.objectNames.map Text.fold).Nodup ↔
      ∀ t, s.ids = .sequence t → t.key ∉ s.indexes.map fun i => Text.fold i.1 := by
  obtain ⟨hvalid, hs⟩ := validate_eq_ok_iff.1 h
  have hindexes := nodup_indexNames s
  cases hids : s.ids with
  | autoIncrement =>
    have hnames : s.objectNames.map Text.fold =
        s.table.key :: s.indexes.map fun i => Text.fold i.1 := by
      simp [Schema.objectNames, hids, Identifier.key]
    rw [hnames]
    simpa using hindexes
  | sequence t =>
    have hnames : s.objectNames.map Text.fold =
        (s.table.key :: s.indexes.map fun i => Text.fold i.1) ++ [t.key] := by
      simp [Schema.objectNames, hids, Identifier.key]
    have htable : t.key ≠ s.table.key := by
      obtain ⟨name, hname, rfl⟩ : ∃ name, m.ids = .sequence name ∧ t = ⟨name⟩ := by
        have hresolved := hs.ids
        rw [hids] at hresolved
        cases hm : m.ids with
        | autoIncrement => simp [hm, IdSource.resolved] at hresolved
        | sequence name =>
          rw [hm] at hresolved
          exact ⟨name, rfl, IdSource.sequence.inj hresolved⟩
      rw [hs.table, Identifier.key, Identifier.key, Text.fold_eq, Text.fold_eq]
      exact (hvalid.sequence name hname).2
    rw [hnames, List.nodup_append]
    simp only [hindexes, List.nodup_singleton, true_and, List.mem_singleton, forall_eq,
      IdSource.sequence.injEq, forall_eq', List.forall_mem_cons]
    constructor
    · rintro ⟨-, happart⟩ hmem
      exact happart _ hmem rfl
    · intro hfree
      exact ⟨htable.symm, fun name hname => fun heq => hfree (heq ▸ hname)⟩

/-- What a checked schema declares is the schema exactly if every declared type of the payload
keeps to its element, and nothing it creates meets anything else exactly if its sequence is not
named as one of its indexes. -/
theorem definitions_are_exact_iff {m : Mapping} {s : Schema} (h : m.validate = .ok s) :
    (s.IsDeclared ↔ ∀ f ∈ s.fields, ∀ type ∈ f.sqlType, KeepsSlot type.toList) ∧
      ((s.objectNames.map Text.fold).Nodup ↔
        ∀ t, s.ids = .sequence t → t.key ∉ s.indexes.map fun i => Text.fold i.1) :=
  ⟨isDeclared_iff h, nodup_objectNames_iff h⟩

def priced : Mapping where
  table := "goods"
  fields := [.typed "price" "NUMERIC(10, 2)", ⟨"note", none, none⟩]
  partition := some ⟨"shop", .text "north"⟩
  ids := .sequence "counters"

def pricedSchema : Schema where
  table := ⟨"goods"⟩
  id := ⟨"id"⟩
  left := ⟨"l"⟩
  right := ⟨"r"⟩
  parent := ⟨"parent"⟩
  partition := some ⟨⟨"shop"⟩, .text "north"⟩
  fields := [⟨"price", ⟨"price"⟩, some "NUMERIC(10, 2)"⟩, ⟨"note", ⟨"note"⟩, none⟩]
  order := .left
  ids := .sequence ⟨"counters"⟩

theorem definitions_are_exact_priced :
    priced.validate = .ok pricedSchema ∧ pricedSchema.IsDeclared ∧
      (pricedSchema.objectNames.map Text.fold).Nodup := by
  have hchecked : priced.validate = .ok pricedSchema := by decide +kernel
  obtain ⟨hdeclared, hnames⟩ := definitions_are_exact_iff hchecked
  have htypes : ∀ f ∈ pricedSchema.fields, ∀ type ∈ f.sqlType, KeepsSlot type.toList := by
    decide +kernel
  have hfree : ∀ t, pricedSchema.ids = .sequence t →
      t.key ∉ pricedSchema.indexes.map fun i => Text.fold i.1 := by
    rintro _ ⟨⟩
    decide +kernel
  exact ⟨hchecked, hdeclared.2 htypes, hnames.2 hfree⟩

def spliced : Mapping := { table := "t", fields := [.typed "a" "TEXT, extra INTEGER"] }

def splicedSchema : Schema where
  table := ⟨"t"⟩
  id := ⟨"id"⟩
  left := ⟨"l"⟩
  right := ⟨"r"⟩
  parent := ⟨"parent"⟩
  partition := none
  fields := [⟨"a", ⟨"a"⟩, some "TEXT, extra INTEGER"⟩]
  order := .left
  ids := .autoIncrement

def clashing : Mapping := { table := "t", ids := .sequence "T_Left_Idx" }

def clashingSchema : Schema :=
  { splicedSchema with fields := [], ids := .sequence ⟨"T_Left_Idx"⟩ }

/-- The check lets both pass. -/
theorem checked_schemas_are_not_exact :
    (spliced.validate = .ok splicedSchema ∧ ¬splicedSchema.IsDeclared) ∧
      clashing.validate = .ok clashingSchema ∧
        ¬(clashingSchema.objectNames.map Text.fold).Nodup := by
  have hspliced : spliced.validate = .ok splicedSchema := by decide +kernel
  have hclashing : clashing.validate = .ok clashingSchema := by decide +kernel
  have hnames : ¬(clashingSchema.objectNames.map Text.fold).Nodup := by decide +kernel
  have htypes : ¬∀ f ∈ splicedSchema.fields, ∀ type ∈ f.sqlType, KeepsSlot type.toList := by
    decide +kernel
  exact ⟨⟨hspliced, fun hdeclared => htypes ((isDeclared_iff hspliced).1 hdeclared)⟩, hclashing,
    hnames⟩

end Mapping

end NestedSet
