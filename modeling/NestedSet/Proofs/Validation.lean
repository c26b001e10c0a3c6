import Mathlib
import NestedSet.Record
import NestedSet.Schema.Summary
import NestedSet.Proofs.Naming
import NestedSet.Proofs.Statements

/-!
# Which mappings are schemas

The check of a mapping goes through the columns once and keeps the keys and the
names that it has met. What it accepts is said here of the mapping as a whole:
all names are identifiers, columns and fields are apart, types are spelled with
the letters of a type, and the order names a field. A schema that comes out
selects the columns in the order of the fields, and finds each under its name.
-/

set_option autoImplicit false

namespace NestedSet

theorem bind_eq_ok_iff {ε α β : Type} {x : Except ε α} {f : α → Except ε β} {b : β} :
    x >>= f = .ok b ↔ ∃ a, x = .ok a ∧ f a = .ok b :=
  ⟨exists_of_bind_ok, fun ⟨_, hx, hf⟩ => by rw [hx]; exact hf⟩

/-! ### Texts without the white space around them -/

namespace Text

def Trims (text core : List Char) : Prop :=
  ∃ before after, text = before ++ core ++ after ∧
    (∀ c ∈ before, isBlank c = true) ∧ (∀ c ∈ after, isBlank c = true) ∧
    (∀ c ∈ core.head?, isBlank c = false) ∧ ∀ c ∈ core.getLast?, isBlank c = false

theorem exists_dropWhile (p : Char → Bool) (cs : List Char) :
    ∃ before, cs = before ++ cs.dropWhile p ∧ (∀ c ∈ before, p c = true) ∧
      ∀ c ∈ (cs.dropWhile p).head?, p c = false := by
  refine ⟨cs.takeWhile p, List.takeWhile_append_dropWhile.symm, fun _ => List.mem_takeWhile_imp, ?_⟩
  intro c hc
  have hhead := List.head?_dropWhile_not p cs
  rw [Option.mem_def.1 hc] at hhead
  simpa using hhead

theorem dropWhile_append_of_ends {p : Char → Bool} {before core : List Char}
    (hbefore : ∀ c ∈ before, p c = true) (hcore : ∀ c ∈ core.head?, p c = false) :
    (before ++ core).dropWhile p = core := by
  rw [List.dropWhile_append_of_pos hbefore]
  cases core with
  | nil => rfl
  | cons c rest => exact List.dropWhile_cons_of_neg (by simp [hcore c rfl])

/-- Trimming takes away what it should, and only one text is left by that. -/
theorem trims_iff {text core : List Char} : Trims text core ↔ core = trimEnds isBlank text := by
  constructor
  · rintro ⟨before, after, rfl, hbefore, hafter, hhead, hlast⟩
    have hback : ∀ c ∈ after.reverse, isBlank c = true := fun c hc =>
      hafter c (List.mem_reverse.1 hc)
    have hlast' : ∀ c ∈ core.reverse.head?, isBlank c = false := by rwa [List.head?_reverse]
    unfold trimEnds
    rw [List.append_assoc, List.dropWhile_append_of_pos hbefore]
    cases core with
    | nil =>
      have hnone : after.dropWhile isBlank = [] := List.dropWhile_eq_nil_iff.2 hafter
      simp [hnone]
    | cons c rest =>
      have hfirst : ((c :: rest) ++ after).dropWhile isBlank = (c :: rest) ++ after :=
        List.dropWhile_cons_of_neg (by simp [hhead c rfl])
      rw [hfirst, List.reverse_append, dropWhile_append_of_ends hback hlast', List.reverse_reverse]
  · rintro rfl
    obtain ⟨before, hsplit, hbefore, hhead⟩ := exists_dropWhile isBlank text
    obtain ⟨behind, hsplit', hbehind, hlast⟩ :=
      exists_dropWhile isBlank (text.dropWhile isBlank).reverse
    have hrest : text.dropWhile isBlank = trimEnds isBlank text ++ behind.reverse := by
      rw [← List.reverse_reverse (text.dropWhile isBlank), hsplit', List.reverse_append]
      rfl
    refine ⟨before, behind.reverse, ?_, hbefore, ?_, ?_, ?_⟩
    · rw [List.append_assoc, ← hrest]
      exact hsplit
    · exact fun c hc => hbehind c (List.mem_reverse.1 hc)
    · intro c hc
      refine hhead c ?_
      rw [hrest, List.head?_append, Option.mem_def.1 hc]
      rfl
    · intro c hc
      rw [trimEnds, List.getLast?_reverse] at hc
      exact hlast c hc

end Text

/-! ### The single checks -/

namespace Mapping

/-- The texts that declare the type of a column, once trimmed. -/
def DeclaresType (declaration : String) : Prop :=
  ∃ core, Text.Trims declaration.toList core ∧ core ≠ [] ∧
    ∀ c ∈ core, c.isAlphanum = true ∨ c ∈ [' ', '_', '(', ')', ',']

theorem identifier_eq_ok_iff {role : NameRole} {name : String} {i : Identifier} :
    identifier role name = .ok i ↔ Identifier.Admits name ∧ i = ⟨name⟩ := by
  rw [← Identifier.fault?_eq_none_iff, ← Identifier.ofString_eq_ok_iff]
  unfold identifier
  cases Identifier.ofString name <;> simp

theorem claim_eq_ok_iff {taken taken' : List String} {column : Identifier} :
    claim taken column = .ok taken' ↔ column.key ∉ taken ∧ taken' = column.key :: taken := by
  unfold claim
  split
  · simp_all
  · simp_all [eq_comm]

theorem claimAll_eq_ok_iff {taken taken' : List String} {columns : List Identifier} :
    claimAll taken columns = .ok taken' ↔
      ((columns.map Identifier.key).Nodup ∧ ∀ c ∈ columns, c.key ∉ taken) ∧
        taken' = (columns.map Identifier.key).reverse ++ taken := by
  induction columns generalizing taken with
  | nil => simp [claimAll, eq_comm]
  | cons c rest ih =>
    rw [claimAll, bind_eq_ok_iff]
    simp only [claim_eq_ok_iff, ih]
    constructor
    · rintro ⟨_, ⟨hfree, rfl⟩, ⟨hnodup, happart⟩, rfl⟩
      grind
    · rintro ⟨⟨hnodup, happart⟩, rfl⟩
      exact ⟨_, ⟨by grind, rfl⟩, ⟨by grind, by grind⟩, by grind⟩

theorem declaresType_iff {declaration : String} :
    DeclaresType declaration ↔ ((Text.trim declaration).isEmpty ||
      !(Text.trim declaration).toList.all isTypeChar) = false := by
  have hchar (c : Char) : isTypeChar c = true ↔
      c.isAlphanum = true ∨ c ∈ [' ', '_', '(', ')', ','] := by
    simp only [isTypeChar, Bool.or_eq_true, Identifier.isPart_iff, beq_iff_eq, List.mem_cons,
      List.not_mem_nil, or_false]
    tauto
  have hempty : (Text.trim declaration).isEmpty = false ↔
      Text.trimEnds Text.isBlank declaration.toList ≠ [] := by
    rw [← Bool.not_eq_true, String.isEmpty_iff, Text.trim, ← String.toList_eq_nil_iff,
      String.toList_ofList]
  rw [Bool.or_eq_false_iff, hempty]
  simp only [DeclaresType, Text.trims_iff, exists_eq_left, Bool.not_eq_false', List.all_eq_true,
    Text.trim, String.toList_ofList, hchar]

theorem sqlType_eq_ok_iff {declaration type : String} :
    sqlType declaration = .ok type ↔ DeclaresType declaration ∧ type = Text.trim declaration := by
  rw [declaresType_iff]
  cases htest : (Text.trim declaration).isEmpty ||
      !(Text.trim declaration).toList.all isTypeChar <;>
    simp [sqlType, htest, eq_comm]

theorem sqlType?_eq_ok_iff {declaration type : Option String} :
    sqlType? declaration = .ok type ↔
      (∀ d ∈ declaration, DeclaresType d) ∧ type = declaration.map Text.trim := by
  cases declaration with
  | none => simp [sqlType?, eq_comm]
  | some d =>
    have hmap : sqlType? (some d) = .ok type ↔ ∃ t, sqlType d = .ok t ∧ some t = type := by
      cases h : sqlType d <;> simp [sqlType?, h, Functor.map, Except.map]
    simp only [hmap, sqlType_eq_ok_iff, Option.mem_some_iff, forall_eq', Option.map_some]
    exact ⟨fun ⟨_, ⟨hd, ht⟩, h⟩ => ⟨hd, by rw [← h, ht]⟩, fun ⟨hd, h⟩ => ⟨_, ⟨hd, rfl⟩, h.symm⟩⟩

end Mapping

/-! ### The check as a whole -/

/-- A field that may be declared, whatever the other fields are. -/
structure FieldSpec.Fits (f : FieldSpec) : Prop where
  unreserved : f.name ∉ structuralFields
  column : Identifier.Admits f.columnName
  type : ∀ d ∈ f.sqlType, Mapping.DeclaresType d

def FieldSpec.resolved (f : FieldSpec) : Field := ⟨f.name, ⟨f.columnName⟩, f.sqlType.map Text.trim⟩

def PartitionSpec.resolved (p : PartitionSpec) : Partition := ⟨⟨p.column⟩, p.key⟩

namespace Mapping

theorem partition?_eq_ok_iff {taken taken' : List String} {spec : Option PartitionSpec}
    {partition : Option Partition} :
    partition? taken spec = .ok (partition, taken') ↔
      (∀ p ∈ spec, Identifier.Admits p.column ∧ Text.fold p.column ∉ taken) ∧
        partition = spec.map PartitionSpec.resolved ∧
        taken' = (spec.map fun p => Text.fold p.column).toList ++ taken := by
  cases spec with
  | none => simp [partition?, eq_comm]
  | some p =>
    simp only [partition?, bind_eq_ok_iff, identifier_eq_ok_iff, claim_eq_ok_iff]
    constructor
    · rintro ⟨_, ⟨hname, rfl⟩, _, ⟨hfree, rfl⟩, h⟩
      cases h
      exact ⟨by rintro _ ⟨⟩; exact ⟨hname, hfree⟩, rfl, rfl⟩
    · rintro ⟨h, rfl, rfl⟩
      exact ⟨_, ⟨(h p rfl).1, rfl⟩, _, ⟨(h p rfl).2, rfl⟩, rfl⟩

theorem payload_cons_eq_ok_iff {names taken : List String} {spec : FieldSpec}
    {rest : List FieldSpec} {fields : List Field} :
    payload names taken (spec :: rest) = .ok fields ↔
      spec.Fits ∧ spec.name ∉ names ∧ Text.fold spec.columnName ∉ taken ∧
        ∃ more, payload (spec.name :: names) (Text.fold spec.columnName :: taken) rest = .ok more ∧
          fields = spec.resolved :: more := by
  rw [payload]
  by_cases hreserved : spec.name ∈ structuralFields
  · rw [if_pos hreserved]
    exact ⟨fun h => (by cases h), fun h => absurd hreserved h.1.unreserved⟩
  rw [if_neg hreserved]
  by_cases hname : spec.name ∈ names
  · simp only [if_pos hname]
    exact ⟨fun h => (by cases h), fun h => absurd hname h.2.1⟩
  simp only [if_neg hname]
  constructor
  · intro h
    obtain ⟨column, hcolumn, h⟩ := exists_of_bind_ok h
    obtain ⟨taken', hclaim, h⟩ := exists_of_bind_ok h
    obtain ⟨type, htype, h⟩ := exists_of_bind_ok h
    obtain ⟨more, hmore, h⟩ := exists_of_bind_ok h
    cases h
    obtain ⟨hadmits, rfl⟩ := identifier_eq_ok_iff.1 hcolumn
    obtain ⟨hfree, rfl⟩ := claim_eq_ok_iff.1 hclaim
    obtain ⟨htypes, rfl⟩ := sqlType?_eq_ok_iff.1 htype
    exact ⟨⟨hreserved, hadmits, htypes⟩, hname, hfree, more, hmore, rfl⟩
  · rintro ⟨hfits, -, hfree, more, hmore, rfl⟩
    exact bind_eq_ok_iff.2 ⟨_, identifier_eq_ok_iff.2 ⟨hfits.column, rfl⟩,
      bind_eq_ok_iff.2 ⟨_, claim_eq_ok_iff.2 ⟨hfree, rfl⟩,
        bind_eq_ok_iff.2 ⟨_, sqlType?_eq_ok_iff.2 ⟨hfits.type, rfl⟩,
          bind_eq_ok_iff.2 ⟨more, hmore, rfl⟩⟩⟩⟩

theorem payload_eq_ok_iff {names taken : List String} {specs : List FieldSpec}
    {fields : List Field} :
    payload names taken specs = .ok fields ↔
      (∀ f ∈ specs, f.Fits ∧ f.name ∉ names ∧ Text.fold f.columnName ∉ taken) ∧
        (specs.map (·.name)).Nodup ∧ (specs.map fun f => Text.fold f.columnName).Nodup ∧
        fields = specs.map FieldSpec.resolved := by
  induction specs generalizing names taken fields with
  | nil => simp [payload, eq_comm]
  | cons spec rest ih =>
    rw [payload_cons_eq_ok_iff]
    simp only [ih, List.map_cons, List.nodup_cons, List.forall_mem_cons]
    constructor
    · rintro ⟨hfits, hname, hfree, _, ⟨hall, hnames, hcolumns, rfl⟩, rfl⟩
      refine ⟨⟨⟨hfits, hname, hfree⟩, fun f hf => ?_⟩, ⟨?_, hnames⟩, ⟨?_, hcolumns⟩, rfl⟩
      · obtain ⟨hfits', hname', hfree'⟩ := hall f hf
        exact ⟨hfits', List.not_mem_of_not_mem_cons hname', List.not_mem_of_not_mem_cons hfree'⟩
      · intro hmem
        obtain ⟨f, hf, he⟩ := List.mem_map.1 hmem
        exact (hall f hf).2.1 (he ▸ List.mem_cons_self)
      · intro hmem
        obtain ⟨f, hf, he⟩ := List.mem_map.1 hmem
        exact (hall f hf).2.2 (he ▸ List.mem_cons_self)
    · rintro ⟨⟨⟨hfits, hname, hfree⟩, hall⟩, ⟨hnew, hnames⟩, ⟨hnewColumn, hcolumns⟩, rfl⟩
      refine ⟨hfits, hname, hfree, _, ⟨fun f hf => ⟨(hall f hf).1, ?_, ?_⟩, hnames, hcolumns, rfl⟩,
        rfl⟩
      · intro hmem
        rcases List.mem_cons.1 hmem with he | hmem
        · exact hnew (he ▸ List.mem_map_of_mem hf)
        · exact (hall f hf).2.1 hmem
      · intro hmem
        rcases List.mem_cons.1 hmem with he | hmem
        · exact hnewColumn (List.mem_map.2 ⟨f, hf, he⟩)
        · exact (hall f hf).2.2 hmem

theorem exists_order_iff {fields : List Field} {orderBy : Option String} :
    (∃ key, order fields orderBy = .ok key) ↔
      ∀ name ∈ orderBy, name ∈ structuralFields ++ fields.map (·.name) := by
  cases orderBy with
  | none => simp [order]
  | some name =>
    have hfound : (∃ f, fields.find? (·.name == name) = some f) ↔ name ∈ fields.map (·.name) := by
      rw [← Option.isSome_iff_exists, List.find?_isSome]
      simp
    simp only [order, structuralFields, Option.mem_some_iff, forall_eq', List.mem_append,
      List.mem_cons, List.not_mem_nil, or_false, ← hfound]
    by_cases hleft : name = "left"
    · simp [hleft]
    by_cases hright : name = "right"
    · simp [hright]
    by_cases hid : name = "id"
    · simp [hid]
    by_cases hparent : name = "parent_id"
    · simp [hparent]
    cases hfind : fields.find? (·.name == name) <;> simp [hleft, hright, hid, hparent]

end Mapping

def IdSource.resolved : IdSource String → IdSource Identifier
  | .autoIncrement => .autoIncrement
  | .sequence name => .sequence ⟨name⟩

namespace Mapping

theorem idSource_eq_ok_iff {table : Identifier} {spelled : IdSource String}
    {ids : IdSource Identifier} :
    idSource table spelled = .ok ids ↔
      (∀ name, spelled = .sequence name → Identifier.Admits name ∧ Text.fold name ≠ table.key) ∧
        ids = spelled.resolved := by
  cases spelled with
  | autoIncrement => simp [idSource, IdSource.resolved, eq_comm]
  | sequence name =>
    simp only [idSource, bind_eq_ok_iff, identifier_eq_ok_iff, IdSource.resolved]
    constructor
    · rintro ⟨_, ⟨hname, rfl⟩, h⟩
      split at h
      · cases h
      · rename_i hne
        cases h
        exact ⟨by rintro _ ⟨⟩; exact ⟨hname, hne⟩, rfl⟩
    · rintro ⟨h, rfl⟩
      have hne : (⟨name⟩ : Identifier).key ≠ table.key := (h name rfl).2
      exact ⟨_, ⟨(h name rfl).1, rfl⟩, by rw [if_neg hne]; rfl⟩

end Mapping

def ColumnNames.toList (c : ColumnNames) : List String := [c.id, c.left, c.right, c.parent]

namespace Mapping

def columnNames (m : Mapping) : List String :=
  m.columns.toList ++ (m.partition.map (·.column)).toList ++ m.fields.map (·.columnName)

def namedColumns (m : Mapping) : List (String × String) :=
  [("id", m.columns.id), ("left", m.columns.left), ("right", m.columns.right),
    ("parent_id", m.columns.parent)] ++ m.fields.map fun f => (f.name, f.columnName)

/-- The mappings that describe a table. -/
structure Valid (m : Mapping) : Prop where
  table : Identifier.Admits m.table
  columns : ∀ c ∈ m.columnNames, Identifier.Admits c
  apart : (m.columnNames.map String.toLower).Nodup
  fields : (m.fields.map (·.name)).Nodup
  unreserved : ∀ f ∈ m.fields, f.name ∉ structuralFields
  types : ∀ f ∈ m.fields, ∀ d ∈ f.sqlType, DeclaresType d
  order : ∀ name ∈ m.orderBy, name ∈ m.namedColumns.map (·.1)
  sequence : ∀ name, m.ids = .sequence name →
    Identifier.Admits name ∧ name.toLower ≠ m.table.toLower

/-- The schema that a mapping comes to, up to the order and the ids, which are as checked. -/
structure ComesTo (m : Mapping) (s : Schema) : Prop where
  table : s.table = ⟨m.table⟩
  structural : s.structuralColumns = m.columns.toList.map Identifier.mk
  partition : s.partition = m.partition.map PartitionSpec.resolved
  fields : s.fields = m.fields.map FieldSpec.resolved
  order : order s.fields m.orderBy = .ok s.order
  ids : s.ids = m.ids.resolved

variable {m : Mapping} {s : Schema}

theorem map_fold (names : List String) : names.map Text.fold = names.map String.toLower :=
  List.map_congr_left fun name _ => Text.fold_eq name

theorem ComesTo.columns_eq (h : m.ComesTo s) : s.columns = m.columnNames.map Identifier.mk := by
  rw [Schema.columns, h.structural, h.partition, h.fields, columnNames]
  cases m.partition <;> simp [PartitionSpec.resolved, FieldSpec.resolved, Function.comp_def]

theorem ComesTo.keys_eq (h : m.ComesTo s) :
    s.columns.map Identifier.key = m.columnNames.map String.toLower := by
  rw [h.columns_eq, List.map_map, ← map_fold]
  rfl

theorem forall_columnNames_iff {p : String → Prop} :
    (∀ c ∈ m.columnNames, p c) ↔
      (p m.columns.id ∧ p m.columns.left ∧ p m.columns.right ∧ p m.columns.parent) ∧
        (∀ q ∈ m.partition, p q.column) ∧ ∀ f ∈ m.fields, p f.columnName := by
  simp [columnNames, ColumnNames.toList, or_imp, forall_and, and_assoc]

theorem nodup_columnNames_iff : (m.columnNames.map String.toLower).Nodup ↔
    (m.columns.toList.map Text.fold).Nodup ∧
      (∀ q ∈ m.partition, Text.fold q.column ∉ (m.columns.toList.map Text.fold).reverse) ∧
      (m.fields.map fun f => Text.fold f.columnName).Nodup ∧
      ∀ f ∈ m.fields, Text.fold f.columnName ∉
        (m.partition.map fun q => Text.fold q.column).toList ++
          (m.columns.toList.map Text.fold).reverse := by
  have hmap : m.columnNames.map Text.fold = m.columns.toList.map Text.fold ++
      (m.partition.map fun q => Text.fold q.column).toList ++
      m.fields.map fun f => Text.fold f.columnName := by
    cases hq : m.partition <;> simp [columnNames, hq, Function.comp_def]
  rw [← map_fold, hmap, List.nodup_append, List.nodup_append]
  cases m.partition with
  | none => simp; grind
  | some q => simp; grind

theorem namedColumns_names :
    m.namedColumns.map (·.1) = structuralFields ++ m.fields.map (·.name) := by
  simp [namedColumns, structuralFields]

theorem names_resolved (specs : List FieldSpec) :
    (specs.map FieldSpec.resolved).map (·.name) = specs.map (·.name) := List.map_map

theorem valid_of_validate (h : m.validate = .ok s) : m.Valid ∧ m.ComesTo s := by
  unfold validate at h
  obtain ⟨table, htable', h⟩ := exists_of_bind_ok h
  obtain ⟨id, hid', h⟩ := exists_of_bind_ok h
  obtain ⟨left, hleft', h⟩ := exists_of_bind_ok h
  obtain ⟨right, hright', h⟩ := exists_of_bind_ok h
  obtain ⟨parent, hparent', h⟩ := exists_of_bind_ok h
  obtain ⟨taken, hstructural', h⟩ := exists_of_bind_ok h
  obtain ⟨⟨partition, taken'⟩, hpartition', h⟩ := exists_of_bind_ok h
  obtain ⟨fields, hfields, h⟩ := exists_of_bind_ok h
  obtain ⟨key, horder, h⟩ := exists_of_bind_ok h
  obtain ⟨ids, hids, h⟩ := exists_of_bind_ok h
  cases h
  obtain ⟨htable, rfl⟩ := identifier_eq_ok_iff.1 htable'
  obtain ⟨hid, rfl⟩ := identifier_eq_ok_iff.1 hid'
  obtain ⟨hleft, rfl⟩ := identifier_eq_ok_iff.1 hleft'
  obtain ⟨hright, rfl⟩ := identifier_eq_ok_iff.1 hright'
  obtain ⟨hparent, rfl⟩ := identifier_eq_ok_iff.1 hparent'
  obtain ⟨⟨hstructural, -⟩, rfl⟩ := claimAll_eq_ok_iff.1 hstructural'
  rw [List.append_nil] at hpartition'
  obtain ⟨hpartition, rfl, rfl⟩ := partition?_eq_ok_iff.1 hpartition'
  obtain ⟨hall, hnames, hcolumns, rfl⟩ := payload_eq_ok_iff.1 hfields
  obtain ⟨hsequence, rfl⟩ := idSource_eq_ok_iff.1 hids
  refine ⟨?_, ⟨rfl, rfl, rfl, rfl, horder, rfl⟩⟩
  exact {
    table := htable
    columns := forall_columnNames_iff.2 ⟨⟨hid, hleft, hright, hparent⟩,
      fun q hq => (hpartition q hq).1, fun f hf => (hall f hf).1.column⟩
    apart := nodup_columnNames_iff.2 ⟨hstructural, fun q hq => (hpartition q hq).2, hcolumns,
      fun f hf => (hall f hf).2.2⟩
    fields := hnames
    unreserved := fun f hf => (hall f hf).1.unreserved
    types := fun f hf => (hall f hf).1.type
    order := by
      rw [namedColumns_names, ← names_resolved]
      exact exists_order_iff.1 ⟨key, horder⟩
    sequence := fun name hname => by
      rw [← Text.fold_eq, ← Text.fold_eq]
      exact hsequence name hname }

theorem ComesTo.validate_eq (hs : m.ComesTo s) (hm : m.Valid) : m.validate = .ok s := by
  obtain ⟨⟨hid, hleft, hright, hparent⟩, hpartition, hfields⟩ :=
    forall_columnNames_iff.1 hm.columns
  obtain ⟨hstructural, hfree, hcolumns, happart⟩ := nodup_columnNames_iff.1 hm.apart
  obtain ⟨table, id, left, right, parent, partition, fields, key, ids⟩ := s
  obtain ⟨rfl, hcols, rfl, rfl, horder, rfl⟩ := hs
  cases hcols
  have hname : ∀ {role : NameRole} {name : String}, Identifier.Admits name →
      identifier role name = .ok ⟨name⟩ := fun hadmits => identifier_eq_ok_iff.2 ⟨hadmits, rfl⟩
  have hclaimed : claimAll [] [⟨m.columns.id⟩, ⟨m.columns.left⟩, ⟨m.columns.right⟩,
      ⟨m.columns.parent⟩] = .ok (m.columns.toList.map Text.fold).reverse :=
    claimAll_eq_ok_iff.2 ⟨⟨hstructural, fun _ _ => List.not_mem_nil⟩, rfl⟩
  have hresolved := partition?_eq_ok_iff.2
    ⟨fun q hq => ⟨hpartition q hq, hfree q hq⟩, rfl, rfl⟩
  have hfits : ∀ f ∈ m.fields, f.Fits := fun f hf =>
    ⟨hm.unreserved f hf, hfields f hf, hm.types f hf⟩
  have hpayload := payload_eq_ok_iff.2
    ⟨fun f hf => ⟨hfits f hf, List.not_mem_nil, happart f hf⟩, hm.fields, hcolumns, rfl⟩
  have hids : idSource ⟨m.table⟩ m.ids = .ok m.ids.resolved := by
    refine idSource_eq_ok_iff.2 ⟨fun name hsequence => ?_, rfl⟩
    change Identifier.Admits name ∧ Text.fold name ≠ Text.fold m.table
    rw [Text.fold_eq, Text.fold_eq]
    exact hm.sequence name hsequence
  simp only [validate, hname hm.table, hname hid, hname hleft, hname hright, hname hparent,
    hclaimed, hresolved, hpayload, horder, hids, bind, Except.bind, pure, Except.pure]

theorem validate_eq_ok_iff : m.validate = .ok s ↔ m.Valid ∧ m.ComesTo s :=
  ⟨valid_of_validate, fun ⟨hm, hs⟩ => hs.validate_eq hm⟩

/-! ### What a schema reads and finds -/

theorem ComesTo.selected_eq (h : m.ComesTo s) :
    s.selected = m.namedColumns.map fun c => ⟨c.2⟩ := by
  rw [Schema.selected, h.structural, h.fields]
  simp [namedColumns, ColumnNames.toList, FieldSpec.resolved, Function.comp_def]

theorem ComesTo.payload_eq (h : m.ComesTo s) (t : Table) (r : Row) :
    (s.record t r).payload =
      (m.fields.map (·.name)).zip ((s.selected.drop 4).map fun c => (t.cell c r).value) := by
  have hdrop : s.selected.drop 4 = s.fields.map (·.column) := rfl
  rw [hdrop, Schema.record, h.fields, List.map_map, List.map_map, List.map_map, List.zip_map']
  rfl

theorem ComesTo.field?_eq (h : m.ComesTo s) (hnames : (m.fields.map (·.name)).Nodup) {f : FieldSpec}
    (hf : f ∈ m.fields) : s.field? f.name = some f.resolved := by
  have hmem : f.resolved ∈ s.fields := by
    rw [h.fields]
    exact List.mem_map_of_mem hf
  have hnodup : (s.fields.map (·.name)).Nodup := by
    rw [h.fields, names_resolved]
    exact hnames
  unfold Schema.field?
  cases hfind : s.fields.find? (·.name == f.name) with
  | none =>
    have habsent := List.find?_eq_none.1 hfind f.resolved hmem
    exact absurd (beq_self_eq_true f.name) habsent
  | some g =>
    have hname : g.name = f.name := by simpa using List.find?_some hfind
    rw [List.inj_on_of_nodup_map hnodup (List.mem_of_find?_eq_some hfind) hmem hname]

theorem ComesTo.orderColumn_mem (h : m.ComesTo s) :
    (m.orderBy.getD "left", s.orderColumn.name) ∈ m.namedColumns := by
  obtain ⟨table, id, left, right, parent, partition, fields, key, ids⟩ := s
  obtain ⟨rfl, hcols, rfl, rfl, horder, rfl⟩ := h
  cases hcols
  cases hby : m.orderBy with
  | none =>
    rw [hby] at horder
    cases horder
    simp [namedColumns, Schema.orderColumn]
  | some name =>
    simp only [hby, Mapping.order] at horder
    split_ifs at horder with hleft hright hid hparent
    · cases horder
      simp [namedColumns, Schema.orderColumn, hleft]
    · cases horder
      simp [namedColumns, Schema.orderColumn, hright]
    · cases horder
      simp [namedColumns, Schema.orderColumn, hid]
    · cases horder
      simp [namedColumns, Schema.orderColumn, hparent]
    · split at horder
      · rename_i f hfind
        cases horder
        obtain ⟨spec, hspec, rfl⟩ := List.mem_map.1 (List.mem_of_find?_eq_some hfind)
        have hname : spec.name = name := by simpa [FieldSpec.resolved] using List.find?_some hfind
        refine List.mem_append_right _ (List.mem_map.2 ⟨spec, hspec, ?_⟩)
        simp [Schema.orderColumn, FieldSpec.resolved, hname]
      · cases horder

/-- What can be read with a schema: the columns of a query are those of the fields in the order in
which they are declared, each its own, a declared name leads to its column, and so does the name
of the order. -/
structure Serves (m : Mapping) (s : Schema) : Prop where
  selectList : s.selectList = ", ".intercalate (m.namedColumns.map fun c => "\"" ++ c.2 ++ "\"")
  selected : s.selected.map (·.name) = m.namedColumns.map (·.2)
  distinct : (s.selected.map Identifier.key).Nodup
  payload : ∀ t r, (s.record t r).payload =
    (m.fields.map (·.name)).zip ((s.selected.drop 4).map fun c => (t.cell c r).value)
  field? : ∀ f ∈ m.fields, (s.field? f.name).map (·.column.name) = some f.columnName
  order : (m.orderBy.getD "left", s.orderColumn.name) ∈ m.namedColumns

/-- A mapping is a schema exactly if it is valid, and the schema serves it. -/
theorem schemas_are_valid_mappings (m : Mapping) :
    ((∃ s, m.validate = .ok s) ↔ m.Valid) ∧ ∀ s, m.validate = .ok s → m.Serves s := by
  refine ⟨⟨?_, ?_⟩, ?_⟩
  · rintro ⟨s, h⟩
    exact (validate_eq_ok_iff.1 h).1
  · intro hm
    have hknown : ∀ name ∈ m.orderBy,
        name ∈ structuralFields ++ (m.fields.map FieldSpec.resolved).map (·.name) := by
      rw [names_resolved, ← namedColumns_names]
      exact hm.order
    obtain ⟨key, hkey⟩ := exists_order_iff.2 hknown
    exact ⟨⟨⟨m.table⟩, ⟨m.columns.id⟩, ⟨m.columns.left⟩, ⟨m.columns.right⟩, ⟨m.columns.parent⟩,
      m.partition.map PartitionSpec.resolved, m.fields.map FieldSpec.resolved, key, m.ids.resolved⟩,
      validate_eq_ok_iff.2 ⟨hm, rfl, rfl, rfl, rfl, hkey, rfl⟩⟩
  · intro s h
    obtain ⟨hm, hs⟩ := validate_eq_ok_iff.1 h
    have hkeys : (s.columns.map Identifier.key).Nodup := hs.keys_eq ▸ hm.apart
    have hsub : s.selected.Sublist s.columns :=
      (List.sublist_append_left s.structuralColumns _).append_right _
    exact {
      selectList := by
        rw [Schema.selectList, hs.selected_eq, List.map_map]
        rfl
      selected := by
        rw [hs.selected_eq, List.map_map]
        rfl
      distinct := (hsub.map Identifier.key).nodup hkeys
      payload := hs.payload_eq
      field? := fun f hf => by rw [hs.field?_eq hm.fields hf]; rfl
      order := hs.orderColumn_mem }

/-- A mapping with something of everything: a type with white space around it, a field whose name
is no identifier, columns that differ in more than case, an order by a field. -/
def gazetteer : Mapping where
  table := "Places"
  columns := ⟨"ID", "_lo", "_hi", "up"⟩
  fields := [⟨"name", none, some "\u2003VARCHAR(80)\t"⟩, ⟨"größe", some "size", none⟩]
  orderBy := some "größe"
  partition := some ⟨"atlas", .integer 7⟩
  ids := .sequence "counters"

def gazetteerSchema : Schema where
  table := ⟨"Places"⟩
  id := ⟨"ID"⟩
  left := ⟨"_lo"⟩
  right := ⟨"_hi"⟩
  parent := ⟨"up"⟩
  partition := some ⟨⟨"atlas"⟩, .integer 7⟩
  fields := [⟨"name", ⟨"name"⟩, some "VARCHAR(80)"⟩, ⟨"größe", ⟨"size"⟩, none⟩]
  order := .field ⟨"größe", ⟨"size"⟩, none⟩
  ids := .sequence ⟨"counters"⟩

theorem schemas_are_valid_mappings_gazetteer :
    gazetteer.validate = .ok gazetteerSchema ∧ gazetteer.Valid ∧
      gazetteer.Serves gazetteerSchema := by
  have hchecked : gazetteer.validate = .ok gazetteerSchema := by decide +kernel
  obtain ⟨hvalid, hserves⟩ := schemas_are_valid_mappings gazetteer
  exact ⟨hchecked, hvalid.1 ⟨_, hchecked⟩, hserves _ hchecked⟩

end Mapping

end NestedSet
