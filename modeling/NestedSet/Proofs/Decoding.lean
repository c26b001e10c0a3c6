import Mathlib
import NestedSet.Config
import NestedSet.Proofs.Spelling

/-!
# The documents that denote a configuration

A record is denoted by the objects that hold each of its keys once, in any
order, where a key may be missing if its field has the value that it gets then.
Decoding fills one slot for each key that it meets, so what it has after some
members depends on their keys alone. Any text of any such document is read as
the configuration.
-/

set_option autoImplicit false

namespace NestedSet

/-! ### Denoting documents -/

namespace Denotation

/-- A key of a record: which documents may stand for its value, and whether it may be missing. -/
structure Entry where
  key : String
  denotes : Document → Prop
  missable : Prop

/-- The objects with these keys, each once and in any order. -/
def IsObject (entries : List Entry) (d : Document) : Prop :=
  ∃ members : List (String × Document), d = .object members ∧ (members.map (·.1)).Nodup ∧
    (∀ m ∈ members, ∃ e ∈ entries, e.key = m.1 ∧ e.denotes m.2) ∧
    ∀ e ∈ entries, e.missable ∨ e.key ∈ members.map (·.1)

def IsString (s : String) (d : Document) : Prop := d = .string s

def IsNullable {α : Type} (denotes : α → Document → Prop) : Option α → Document → Prop
  | none, d => d = .null
  | some a, d => denotes a d

def IsList {α : Type} (denotes : α → Document → Prop) (values : List α) (d : Document) : Prop :=
  ∃ items, d = .array items ∧ List.Forall₂ denotes values items

def IsColumns (c : ColumnNames) : Document → Prop :=
  IsObject [⟨"id", IsString c.id, c.id = "id"⟩, ⟨"left", IsString c.left, c.left = "l"⟩,
    ⟨"right", IsString c.right, c.right = "r"⟩,
    ⟨"parent_id", IsString c.parent, c.parent = "parent"⟩]

def IsFieldSpec (f : FieldSpec) : Document → Prop :=
  IsObject [⟨"name", IsString f.name, False⟩,
    ⟨"column", IsNullable IsString f.column, f.column = none⟩,
    ⟨"sql_type", IsNullable IsString f.sqlType, f.sqlType = none⟩]

def IsPartitionKey : PartitionKey → Document → Prop
  | .integer n, d => d = .integer n
  | .text s, d => d = .string s

def IsPartition (p : PartitionSpec) : Document → Prop :=
  IsObject [⟨"column", IsString p.column, False⟩, ⟨"value", IsPartitionKey p.key, False⟩]

def IsIdSource : IdSource String → Document → Prop
  | .autoIncrement => IsObject [⟨"kind", IsString "auto_increment", False⟩]
  | .sequence table =>
    IsObject [⟨"kind", IsString "sequence", False⟩, ⟨"table", IsString table, False⟩]

def IsMapping (m : Mapping) : Document → Prop :=
  IsObject [⟨"table", IsString m.table, False⟩, ⟨"columns", IsColumns m.columns, m.columns = {}⟩,
    ⟨"payload", IsList IsFieldSpec m.fields, m.fields = []⟩,
    ⟨"order_by", IsNullable IsString m.orderBy, m.orderBy = none⟩,
    ⟨"partition", IsNullable IsPartition m.partition, m.partition = none⟩,
    ⟨"ids", IsIdSource m.ids, m.ids = .autoIncrement⟩]

def IsConfig (c : Config) : Document → Prop :=
  IsObject [⟨"schema", IsMapping c.mapping, False⟩,
    ⟨"busy_timeout_ms", (· = .integer c.busyTimeoutMs), c.busyTimeoutMs = 5000⟩]

end Denotation

/-- The configurations whose numbers fit their 64 bits, the waiting time without a sign. -/
structure Config.InRange (c : Config) : Prop where
  busyTimeoutMs : c.busyTimeoutMs < 2 ^ 64
  partitionKey : ∀ p ∈ c.mapping.partition, ∀ n, p.key = .integer n → -2 ^ 63 ≤ n ∧ n < 2 ^ 63

/-! ### Slots -/

namespace Decode

open Denotation

def slot {α : Type} (seen : List String) (key : String) (a : α) : Option α :=
  if key ∈ seen then some a else none

theorem slot_getD {α : Type} {seen : List String} {key : String} {a default : α}
    (h : a = default ∨ key ∈ seen) : (slot seen key a).getD default = a := by
  unfold slot
  split
  · rfl
  · rename_i hnot
    exact (h.resolve_right hnot).symm

theorem required_slot {α : Type} {seen : List String} {key : String} {a : α}
    {absent : String → Problem} (h : key ∈ seen) :
    required absent key (slot seen key a) = .ok a := by
  rw [slot, if_pos h]
  rfl

theorem fill_slot {α : Type} {seen : List String} {a : α} {decode : Document → Decoded α}
    {d : Document} (key : String) (hseen : key ∉ seen) (hd : decode d = .ok a) :
    fill key (slot seen key a) decode d = .ok (slot (key :: seen) key a) := by
  rw [slot, if_neg hseen, slot, if_pos List.mem_cons_self, fill, hd]
  rfl

theorem slot_cons_of_ne {α : Type} {seen : List String} {key other : String} {a : α}
    (h : key ≠ other) : slot (other :: seen) key a = slot seen key a := by
  simp [slot, h]

theorem foldlM_put {σ : Type} {entries : List Entry} {filled : List String → σ}
    {put : σ → String → Document → Decoded σ}
    (hput : ∀ e ∈ entries, ∀ seen d, e.key ∉ seen → e.denotes d →
      put (filled seen) e.key d = .ok (filled (e.key :: seen)))
    {members : List (String × Document)} {seen : List String}
    (hnodup : (members.map (·.1)).Nodup) (hseen : ∀ m ∈ members, m.1 ∉ seen)
    (hmembers : ∀ m ∈ members, ∃ e ∈ entries, e.key = m.1 ∧ e.denotes m.2) :
    members.foldlM (fun s (key, value) => put s key value) (filled seen) =
      .ok (filled ((members.map (·.1)).reverse ++ seen)) := by
  induction members generalizing seen with
  | nil => rfl
  | cons m rest ih =>
    obtain ⟨e, he, hkey, hvalue⟩ := hmembers m List.mem_cons_self
    obtain ⟨hnew, hrest⟩ := List.nodup_cons.1 hnodup
    have hstep : put (filled seen) m.1 m.2 = .ok (filled (m.1 :: seen)) := by
      rw [← hkey]
      exact hput e he seen m.2 (hkey ▸ hseen m List.mem_cons_self) hvalue
    have happart : ∀ x ∈ rest, x.1 ∉ m.1 :: seen := by
      intro x hx hmem
      rcases List.mem_cons.1 hmem with hsame | hmem
      · exact hnew (List.mem_map.2 ⟨x, hx, hsame⟩)
      · exact hseen x (List.mem_cons_of_mem m hx) hmem
    have hafter := ih hrest happart fun x hx => hmembers x (List.mem_cons_of_mem m hx)
    rw [List.foldlM_cons]
    simp only [hstep]
    rw [List.map_cons, List.reverse_cons, List.append_assoc]
    exact hafter

/-- A record is decoded from every object that denotes it. -/
theorem record_of_isObject {σ α : Type} {r : Record} {entries : List Entry}
    {put : σ → String → Document → Decoded σ} {finish : (String → Problem) → σ → Decoded α}
    {a : α} {d : Document} (filled : List String → σ) (h : IsObject entries d)
    (hput : ∀ e ∈ entries, ∀ seen d, e.key ∉ seen → e.denotes d →
      put (filled seen) e.key d = .ok (filled (e.key :: seen)))
    (hfinish : ∀ seen, (∀ e ∈ entries, e.missable ∨ e.key ∈ seen) →
      finish .missingKey (filled seen) = .ok a) :
    record r (filled []) put finish d = .ok a := by
  obtain ⟨members, rfl, hnodup, hmembers, hall⟩ := h
  have hslots := foldlM_put hput hnodup (fun m _ => List.not_mem_nil) hmembers
  rw [List.append_nil] at hslots
  rw [record]
  simp only [hslots]
  exact hfinish _ fun e he => (hall e he).imp_right List.mem_reverse.2

theorem ne_null_of_isObject {entries : List Entry} {d : Document} (h : IsObject entries d) :
    d ≠ .null := by
  rintro rfl
  obtain ⟨_, h, -⟩ := h
  cases h

/-! ### Single values -/

theorem string_of_isString {s : String} {d : Document} (h : IsString s d) : string d = .ok s := by
  obtain rfl : d = .string s := h
  rfl

theorem orNull_of_isNullable {α : Type} {denotes : α → Document → Prop}
    {decode : Document → Decoded α} {a : Option α} {d : Document} (h : IsNullable denotes a d)
    (hdecode : ∀ b ∈ a, denotes b d → d ≠ .null ∧ decode d = .ok b) : orNull decode d = .ok a := by
  cases a with
  | none =>
    obtain rfl : d = .null := h
    rfl
  | some a =>
    obtain ⟨hnull, hd⟩ := hdecode a rfl h
    rw [orNull]
    · rw [hd]
      rfl
    · exact hnull

theorem orNull_string {s : Option String} {d : Document} (h : IsNullable IsString s d) :
    orNull string d = .ok s :=
  orNull_of_isNullable h fun _ _ hd => ⟨by rintro rfl; simp [IsString] at hd, string_of_isString hd⟩

theorem listOf_of_isList {α : Type} {denotes : α → Document → Prop} {decode : Document → Decoded α}
    {values : List α} {d : Document} (h : IsList denotes values d)
    (hdecode : ∀ a d, denotes a d → decode d = .ok a) : listOf decode d = .ok values := by
  obtain ⟨items, rfl, hitems⟩ := h
  rw [listOf]
  induction hitems with
  | nil => rfl
  | cons ha _ ih =>
    rw [List.mapM_cons, hdecode _ _ ha, ih]
    rfl

theorem unsigned_integer (n : Nat) : unsigned (.integer n) = .ok n := rfl

theorem partitionKey_of_isPartitionKey {key : PartitionKey} {d : Document}
    (h : IsPartitionKey key d) (hkey : ∀ n, key = .integer n → n < 2 ^ 63) :
    partitionKey d = .ok key := by
  cases key with
  | integer n =>
    obtain rfl : d = .integer n := h
    have hn : n < Nat.pow 2 63 := by simpa using hkey n rfl
    rw [partitionKey, if_pos hn]
  | text s =>
    obtain rfl : d = .string s := h
    rfl

/-! ### The records -/

def ColumnSlots.filled (c : ColumnNames) (seen : List String) : ColumnSlots where
  id := slot seen "id" c.id
  left := slot seen "left" c.left
  right := slot seen "right" c.right
  parent := slot seen "parent_id" c.parent

theorem columns_of_isColumns {c : ColumnNames} {d : Document} (h : IsColumns c d) :
    columns d = .ok c := by
  refine record_of_isObject (ColumnSlots.filled c) h ?_ ?_
  · intro e he seen d hseen hd
    simp only [List.mem_cons, List.not_mem_nil, or_false] at he
    rcases he with rfl | rfl | rfl | rfl
    · have hfill := fill_slot "id" hseen (string_of_isString hd)
      simp [ColumnSlots.put, ColumnSlots.filled, hfill, slot_cons_of_ne]
    · have hfill := fill_slot "left" hseen (string_of_isString hd)
      simp [ColumnSlots.put, ColumnSlots.filled, hfill, slot_cons_of_ne]
    · have hfill := fill_slot "right" hseen (string_of_isString hd)
      simp [ColumnSlots.put, ColumnSlots.filled, hfill, slot_cons_of_ne]
    · have hfill := fill_slot "parent_id" hseen (string_of_isString hd)
      simp [ColumnSlots.put, ColumnSlots.filled, hfill, slot_cons_of_ne]
  · intro seen hall
    simp only [List.forall_mem_cons] at hall
    obtain ⟨hid, hleft, hright, hparent, -⟩ := hall
    simp [ColumnSlots.finish, ColumnSlots.filled, slot_getD hid, slot_getD hleft,
      slot_getD hright, slot_getD hparent]

def FieldSlots.filled (f : FieldSpec) (seen : List String) : FieldSlots where
  name := slot seen "name" f.name
  column := slot seen "column" f.column
  sqlType := slot seen "sql_type" f.sqlType

theorem field_of_isFieldSpec {f : FieldSpec} {d : Document} (h : IsFieldSpec f d) :
    field d = .ok f := by
  refine record_of_isObject (FieldSlots.filled f) h ?_ ?_
  · intro e he seen d hseen hd
    simp only [List.mem_cons, List.not_mem_nil, or_false] at he
    rcases he with rfl | rfl | rfl
    · have hfill := fill_slot "name" hseen (string_of_isString hd)
      simp [FieldSlots.put, FieldSlots.filled, hfill, slot_cons_of_ne]
    · have hfill := fill_slot "column" hseen (orNull_string hd)
      simp [FieldSlots.put, FieldSlots.filled, hfill, slot_cons_of_ne]
    · have hfill := fill_slot "sql_type" hseen (orNull_string hd)
      simp [FieldSlots.put, FieldSlots.filled, hfill, slot_cons_of_ne]
  · intro seen hall
    simp only [List.forall_mem_cons, false_or] at hall
    obtain ⟨hname, hcolumn, htype, -⟩ := hall
    simp [FieldSlots.finish, FieldSlots.filled, required_slot hname, slot_getD hcolumn,
      slot_getD htype]

def PartitionSlots.filled (p : PartitionSpec) (seen : List String) : PartitionSlots where
  column := slot seen "column" p.column
  value := slot seen "value" p.key

theorem partition_of_isPartition {p : PartitionSpec} {d : Document} (h : IsPartition p d)
    (hkey : ∀ n, p.key = .integer n → n < 2 ^ 63) : partition d = .ok p := by
  refine record_of_isObject (PartitionSlots.filled p) h ?_ ?_
  · intro e he seen d hseen hd
    simp only [List.mem_cons, List.not_mem_nil, or_false] at he
    rcases he with rfl | rfl
    · have hfill := fill_slot "column" hseen (string_of_isString hd)
      simp [PartitionSlots.put, PartitionSlots.filled, hfill, slot_cons_of_ne]
    · have hfill := fill_slot "value" hseen (partitionKey_of_isPartitionKey hd hkey)
      simp [PartitionSlots.put, PartitionSlots.filled, hfill, slot_cons_of_ne]
  · intro seen hall
    simp only [List.forall_mem_cons, false_or] at hall
    obtain ⟨hcolumn, hvalue, -⟩ := hall
    simp only [PartitionSlots.finish, PartitionSlots.filled, required_slot hcolumn,
      required_slot hvalue]
    rfl

theorem perm_keys_of_isObject {entries : List Entry} {d : Document} (h : IsObject entries d)
    (hkeys : (entries.map (·.key)).Nodup) (hnone : ∀ e ∈ entries, ¬e.missable) :
    ∃ members : List (String × Document), d = .object members ∧
      (members.map (·.1)).Perm (entries.map (·.key)) ∧
      ∀ m ∈ members, ∃ e ∈ entries, e.key = m.1 ∧ e.denotes m.2 := by
  obtain ⟨members, rfl, hnodup, hmembers, hall⟩ := h
  refine ⟨members, rfl, (List.perm_ext_iff_of_nodup hnodup hkeys).2 fun key => ⟨?_, ?_⟩, hmembers⟩
  · intro hkey
    obtain ⟨m, hm, rfl⟩ := List.mem_map.1 hkey
    obtain ⟨e, he, hsame, -⟩ := hmembers m hm
    exact List.mem_map.2 ⟨e, he, hsame⟩
  · intro hkey
    obtain ⟨e, he, rfl⟩ := List.mem_map.1 hkey
    exact (hall e he).resolve_left (hnone e he)

theorem idSource_of_isIdSource {ids : IdSource String} {d : Document} (h : IsIdSource ids d) :
    idSource d = .ok ids := by
  cases ids with
  | autoIncrement =>
    obtain ⟨members, rfl, hperm, hmembers⟩ := perm_keys_of_isObject h (by simp) (by simp)
    obtain ⟨⟨key, v⟩, rfl⟩ := List.length_eq_one_iff.1 (by simpa using hperm.length_eq)
    obtain ⟨e, he, rfl, hv⟩ := hmembers (key, v) (by simp)
    obtain rfl := List.mem_singleton.1 he
    obtain rfl : v = .string "auto_increment" := hv
    rfl
  | sequence table =>
    obtain ⟨members, rfl, hperm, hmembers⟩ := perm_keys_of_isObject h (by simp) (by simp)
    obtain ⟨⟨key, v⟩, ⟨key', w⟩, rfl⟩ := List.length_eq_two.1 (by simpa using hperm.length_eq)
    have hne : key ≠ key' := by simpa using hperm.nodup_iff.2 (by simp)
    have hvalues : ∀ m ∈ [(key, v), (key', w)], m = ("kind", .string "sequence") ∨
        m = ("table", .string table) := by
      rintro ⟨x, u⟩ hm
      obtain ⟨e, he, rfl, hu⟩ := hmembers _ hm
      simp only [List.mem_cons, List.not_mem_nil, or_false] at he
      rcases he with rfl | rfl
      · obtain rfl : u = .string "sequence" := hu
        exact .inl rfl
      · obtain rfl : u = .string table := hu
        exact .inr rfl
    rcases hvalues (key, v) (by simp) with h | h <;> cases h <;>
      rcases hvalues (key', w) (by simp) with h | h <;> cases h
    · exact absurd rfl hne
    · rfl
    · rfl
    · exact absurd rfl hne

def MappingSlots.filled (m : Mapping) (seen : List String) : MappingSlots where
  table := slot seen "table" m.table
  columns := slot seen "columns" m.columns
  fields := slot seen "payload" m.fields
  orderBy := slot seen "order_by" m.orderBy
  partition := slot seen "partition" m.partition
  ids := slot seen "ids" m.ids

theorem mapping_of_isMapping {m : Mapping} {d : Document} (h : IsMapping m d)
    (hkey : ∀ p ∈ m.partition, ∀ n, p.key = .integer n → n < 2 ^ 63) : mapping d = .ok m := by
  refine record_of_isObject (MappingSlots.filled m) h ?_ ?_
  · intro e he seen d hseen hd
    simp only [List.mem_cons, List.not_mem_nil, or_false] at he
    rcases he with rfl | rfl | rfl | rfl | rfl | rfl
    · have hfill := fill_slot "table" hseen (string_of_isString hd)
      simp [MappingSlots.put, MappingSlots.filled, hfill, slot_cons_of_ne]
    · have hfill := fill_slot "columns" hseen (columns_of_isColumns hd)
      simp [MappingSlots.put, MappingSlots.filled, hfill, slot_cons_of_ne]
    · have hfill := fill_slot "payload" hseen
        (listOf_of_isList hd fun _ _ => field_of_isFieldSpec)
      simp [MappingSlots.put, MappingSlots.filled, hfill, slot_cons_of_ne]
    · have hfill := fill_slot "order_by" hseen (orNull_string hd)
      simp [MappingSlots.put, MappingSlots.filled, hfill, slot_cons_of_ne]
    · have hvalue : orNull partition d = .ok m.partition :=
        orNull_of_isNullable hd fun p hp hd =>
          ⟨ne_null_of_isObject hd, partition_of_isPartition hd (hkey p hp)⟩
      have hfill := fill_slot "partition" hseen hvalue
      simp [MappingSlots.put, MappingSlots.filled, hfill, slot_cons_of_ne]
    · have hfill := fill_slot "ids" hseen (idSource_of_isIdSource hd)
      simp [MappingSlots.put, MappingSlots.filled, hfill, slot_cons_of_ne]
  · intro seen hall
    simp only [List.forall_mem_cons, false_or] at hall
    obtain ⟨htable, hcolumns, hfields, horder, hpartition, hids, -⟩ := hall
    simp [MappingSlots.finish, MappingSlots.filled, required_slot htable, slot_getD hcolumns,
      slot_getD hfields, slot_getD horder, slot_getD hpartition, slot_getD hids]

def ConfigSlots.filled (c : Config) (seen : List String) : ConfigSlots where
  mapping := slot seen "schema" c.mapping
  busyTimeoutMs := slot seen "busy_timeout_ms" c.busyTimeoutMs

theorem config_of_isConfig {c : Config} {d : Document} (h : IsConfig c d) (hc : c.InRange) :
    config d = .ok c := by
  refine record_of_isObject (ConfigSlots.filled c) h ?_ ?_
  · intro e he seen d hseen hd
    simp only [List.mem_cons, List.not_mem_nil, or_false] at he
    rcases he with rfl | rfl
    · have hvalue := mapping_of_isMapping hd fun p hp n hn => (hc.partitionKey p hp n hn).2
      have hfill := fill_slot "schema" hseen hvalue
      simp [ConfigSlots.put, ConfigSlots.filled, hfill, slot_cons_of_ne]
    · obtain rfl : d = .integer c.busyTimeoutMs := hd
      have hfill := fill_slot "busy_timeout_ms" hseen (unsigned_integer c.busyTimeoutMs)
      simp [ConfigSlots.put, ConfigSlots.filled, hfill, slot_cons_of_ne]
  · intro seen hall
    simp only [List.forall_mem_cons, false_or] at hall
    obtain ⟨hmapping, hbusy, -⟩ := hall
    simp [ConfigSlots.finish, ConfigSlots.filled, required_slot hmapping, slot_getD hbusy]

end Decode

/-! ### Every spelling -/

namespace Denotation

open Document

theorem readable_of_isObject {entries : List Entry} {d : Document} {depth : Nat}
    (h : IsObject entries d) (hentries : ∀ e ∈ entries, ∀ v, e.denotes v → Readable depth v) :
    Readable (depth + 1) d := by
  obtain ⟨members, rfl, -, hmembers, -⟩ := h
  refine .object fun m hm => ?_
  obtain ⟨e, he, -, hvalue⟩ := hmembers m hm
  exact hentries e he m.2 hvalue

theorem readable_of_isString {s : String} {d : Document} {depth : Nat} (h : IsString s d) :
    Readable depth d := by
  obtain rfl : d = .string s := h
  exact .string

theorem readable_of_isNullable {α : Type} {denotes : α → Document → Prop} {a : Option α}
    {d : Document} {depth : Nat} (h : IsNullable denotes a d)
    (hdenotes : ∀ b ∈ a, denotes b d → Readable depth d) : Readable depth d := by
  cases a with
  | none =>
    obtain rfl : d = .null := h
    exact .null
  | some b => exact hdenotes b rfl h

theorem readable_of_isList {α : Type} {denotes : α → Document → Prop} {values : List α}
    {d : Document} {depth : Nat} (h : IsList denotes values d)
    (hdenotes : ∀ a v, denotes a v → Readable depth v) : Readable (depth + 1) d := by
  obtain ⟨items, rfl, hitems⟩ := h
  refine .array ?_
  induction hitems with
  | nil => exact fun _ hv => absurd hv List.not_mem_nil
  | cons ha _ ih => exact List.forall_mem_cons.2 ⟨hdenotes _ _ ha, ih⟩

theorem readable_of_isColumns {c : ColumnNames} {d : Document} {depth : Nat} (h : IsColumns c d) :
    Readable (depth + 1) d := by
  refine readable_of_isObject h fun e he v hv => ?_
  simp only [List.mem_cons, List.not_mem_nil, or_false] at he
  rcases he with rfl | rfl | rfl | rfl <;> exact readable_of_isString hv

theorem readable_of_isFieldSpec {f : FieldSpec} {d : Document} {depth : Nat} (h : IsFieldSpec f d) :
    Readable (depth + 1) d := by
  refine readable_of_isObject h fun e he v hv => ?_
  simp only [List.mem_cons, List.not_mem_nil, or_false] at he
  rcases he with rfl | rfl | rfl
  · exact readable_of_isString hv
  · exact readable_of_isNullable hv fun _ _ => readable_of_isString
  · exact readable_of_isNullable hv fun _ _ => readable_of_isString

theorem readable_of_isPartition {p : PartitionSpec} {d : Document} {depth : Nat}
    (h : IsPartition p d) (hkey : ∀ n, p.key = .integer n → -2 ^ 63 ≤ n ∧ n < 2 ^ 63) :
    Readable (depth + 1) d := by
  refine readable_of_isObject h fun e he v hv => ?_
  simp only [List.mem_cons, List.not_mem_nil, or_false] at he
  rcases he with rfl | rfl
  · exact readable_of_isString hv
  · cases hk : p.key with
    | integer n =>
      obtain rfl : v = .integer n := by simpa [hk, IsPartitionKey] using hv
      obtain ⟨hlow, hhigh⟩ := hkey n hk
      exact .integer hlow (by omega)
    | text s =>
      obtain rfl : v = .string s := by simpa [hk, IsPartitionKey] using hv
      exact .string

theorem readable_of_isIdSource {ids : IdSource String} {d : Document} {depth : Nat}
    (h : IsIdSource ids d) : Readable (depth + 1) d := by
  cases ids with
  | autoIncrement =>
    refine readable_of_isObject h fun e he v hv => ?_
    obtain rfl := List.mem_singleton.1 he
    exact readable_of_isString hv
  | sequence table =>
    refine readable_of_isObject h fun e he v hv => ?_
    simp only [List.mem_cons, List.not_mem_nil, or_false] at he
    rcases he with rfl | rfl <;> exact readable_of_isString hv

theorem readable_of_isMapping {m : Mapping} {d : Document} {depth : Nat} (h : IsMapping m d)
    (hkey : ∀ p ∈ m.partition, ∀ n, p.key = .integer n → -2 ^ 63 ≤ n ∧ n < 2 ^ 63) :
    Readable (depth + 3) d := by
  refine readable_of_isObject h fun e he v hv => ?_
  simp only [List.mem_cons, List.not_mem_nil, or_false] at he
  rcases he with rfl | rfl | rfl | rfl | rfl | rfl
  · exact readable_of_isString hv
  · exact readable_of_isColumns hv
  · exact readable_of_isList hv fun _ _ => readable_of_isFieldSpec
  · exact readable_of_isNullable hv fun _ _ => readable_of_isString
  · exact readable_of_isNullable hv fun p hp hd => readable_of_isPartition hd (hkey p hp)
  · exact readable_of_isIdSource hv

theorem readable_of_isConfig {c : Config} {d : Document} {depth : Nat} (h : IsConfig c d)
    (hc : c.InRange) : Readable (depth + 4) d := by
  refine readable_of_isObject h fun e he v hv => ?_
  simp only [List.mem_cons, List.not_mem_nil, or_false] at he
  rcases he with rfl | rfl
  · exact readable_of_isMapping hv hc.partitionKey
  · obtain rfl : v = .integer c.busyTimeoutMs := hv
    have hbusy := hc.busyTimeoutMs
    exact .integer (by omega) (by omega)

end Denotation

namespace Config

/-- The texts of the documents that denote a configuration. -/
def IsSpelled (c : Config) (text : String) : Prop := ∃ d, Denotation.IsConfig c d ∧ d.IsText text

/-- Every text that spells a configuration with a valid mapping is read as this configuration. -/
theorem spellings_are_read {c : Config} {text : String} (hc : c.InRange)
    (hm : ∃ s, c.mapping.validate = .ok s) (h : c.IsSpelled text) : ofText text = .ok c := by
  obtain ⟨s, hs⟩ := hm
  obtain ⟨d, hd, htext⟩ := h
  have hparse : Document.parse text = some d :=
    Document.parse_of_isText htext <| Denotation.readable_of_isConfig hd hc
  have hdecode : Decode.config d = .ok c := Decode.config_of_isConfig hd hc
  rw [ofText, hparse]
  simp only [hdecode, hs]

/-- A configuration that leaves most to its defaults. -/
def leaflet : Config where
  mapping := { table := "n", fields := [⟨"😀", some "c", none⟩], ids := .sequence "s" }
  busyTimeoutMs := 70

def leafletDocument : Document := .object [
  ("busy_timeout_ms", .integer 70),
  ("schema", .object [
    ("ids", .object [("table", .string "s"), ("kind", .string "sequence")]),
    ("table", .string "n"),
    ("payload", .array [.object [("column", .string "c"), ("name", .string "😀")]]),
    ("order_by", .null)])]

/-- A text of the document, with an escaped key, a surrogate pair, and some white space. -/
def leafletText : String :=
  "\x7b\"busy_timeout_ms\" :70,\n\"schema\":\x7b" ++
    "\"ids\":\x7b\"table\":\"s\",\"kind\":\"sequence\"\x7d,\"t\\u0061ble\":\"n\"," ++
    "\"payload\":[\x7b\"column\":\"c\",\"name\":\"\\ud83d\\uDE00\"\x7d ]," ++
    "\"order_by\":null\x7d\x7d"

open Denotation in
theorem isConfig_leafletDocument : IsConfig leaflet leafletDocument := by
  have hids : IsIdSource (.sequence "s")
      (.object [("table", .string "s"), ("kind", .string "sequence")]) :=
    ⟨_, rfl, by decide, by simp [IsString], by simp⟩
  have hfield : IsFieldSpec ⟨"😀", some "c", none⟩
      (.object [("column", .string "c"), ("name", .string "😀")]) :=
    ⟨_, rfl, by decide, by simp [IsString, IsNullable], by simp⟩
  have hpayload : IsList IsFieldSpec leaflet.mapping.fields
      (.array [.object [("column", .string "c"), ("name", .string "😀")]]) :=
    ⟨_, rfl, .cons hfield .nil⟩
  have hmapping : IsMapping leaflet.mapping (.object [
      ("ids", .object [("table", .string "s"), ("kind", .string "sequence")]),
      ("table", .string "n"),
      ("payload", .array [.object [("column", .string "c"), ("name", .string "😀")]]),
      ("order_by", .null)]) := by
    refine ⟨_, rfl, by decide, ?_, by simp [leaflet]⟩
    simpa [leaflet, hids, IsString, IsNullable] using hpayload
  refine ⟨_, rfl, by decide, ?_, by simp⟩
  simpa [leaflet] using hmapping

open Document in
theorem isText_leafletText : leafletDocument.IsText leafletText := by
  have hplain (s : String) (h : ∀ c ∈ s.toList, 0x20 ≤ c.toNat ∧ c ≠ '"' ∧ c ≠ '\\') :=
    spellsString_plain h
  have hspace : IsGap [' '] := by simp [IsGap]
  have hline : IsGap ['\n'] := by simp [IsGap]
  have htable : SpellsString "table"
      ['"', 't', '\\', 'u', '0', '0', '6', '1', 'b', 'l', 'e', '"'] := by
    have ha : SpellsChar 'a' ['\\', 'u', '0', '0', '6', '1'] :=
      .unit ⟨0, 0, 6, 1, _, _, _, _, rfl, by decide, by decide, by decide, by decide, by decide⟩
    have htext : "table".toList = ['t', 'a', 'b', 'l', 'e'] := by cbv
    refine ⟨['t', '\\', 'u', '0', '0', '6', '1', 'b', 'l', 'e'], ?_, rfl⟩
    rw [htext]
    exact .cons (.plain (by decide) (by decide) (by decide)) (.cons ha (spellsText_plain (by simp)))
  have hname : SpellsString "😀"
      ['"', '\\', 'u', 'd', '8', '3', 'd', '\\', 'u', 'D', 'E', '0', '0', '"'] := by
    have hpair : SpellsChar '😀' ['\\', 'u', 'd', '8', '3', 'd', '\\', 'u', 'D', 'E', '0', '0'] :=
      @SpellsChar.pair _ ['d', '8', '3', 'd'] ['D', 'E', '0', '0'] (by decide)
        ⟨13, 8, 3, 13, _, _, _, _, rfl, by decide, by decide, by decide, by decide, by decide⟩
        ⟨13, 14, 0, 0, _, _, _, _, rfl, by decide, by decide, by decide, by decide, by decide⟩
    have htext : "😀".toList = ['😀'] := by cbv
    refine ⟨['\\', 'u', 'd', '8', '3', 'd', '\\', 'u', 'D', 'E', '0', '0'], ?_, rfl⟩
    rw [htext]
    exact .cons hpair .nil
  have hids := SpellsMembers.more isGap_nil (hplain "table" (by simp)) isGap_nil isGap_nil
    (.string (hplain "s" (by simp))) isGap_nil
    (.last isGap_nil (hplain "kind" (by simp)) isGap_nil isGap_nil
      (.string (hplain "sequence" (by simp))) isGap_nil)
  have hfield := SpellsMembers.more isGap_nil (hplain "column" (by simp)) isGap_nil isGap_nil
    (.string (hplain "c" (by simp))) isGap_nil
    (.last isGap_nil (hplain "name" (by simp)) isGap_nil isGap_nil (.string hname) isGap_nil)
  have hmapping := SpellsMembers.more isGap_nil (hplain "ids" (by simp)) isGap_nil isGap_nil
    (.object hids) isGap_nil
    (.more isGap_nil htable isGap_nil isGap_nil (.string (hplain "n" (by simp))) isGap_nil
      (.more isGap_nil (hplain "payload" (by simp)) isGap_nil isGap_nil
        (.array (.last isGap_nil (.object hfield) hspace)) isGap_nil
        (.last isGap_nil (hplain "order_by" (by simp)) isGap_nil isGap_nil .null isGap_nil)))
  have hconfig := SpellsMembers.more isGap_nil (hplain "busy_timeout_ms" (by simp)) hspace isGap_nil
    (.integer 70) isGap_nil
    (.last hline (hplain "schema" (by simp)) isGap_nil isGap_nil (.object hmapping) isGap_nil)
  exact ⟨[], _, [], isGap_nil, .object hconfig, isGap_nil, by cbv⟩

theorem spellings_are_read_leaflet :
    leaflet.InRange ∧ (∃ s, leaflet.mapping.validate = .ok s) ∧ leaflet.IsSpelled leafletText ∧
      ofText leafletText = .ok leaflet := by
  have hrange : leaflet.InRange := ⟨by decide, by simp [leaflet]⟩
  have hvalid : ∃ s, leaflet.mapping.validate = .ok s :=
    ⟨⟨⟨"n"⟩, ⟨"id"⟩, ⟨"l"⟩, ⟨"r"⟩, ⟨"parent"⟩, none, [⟨"😀", ⟨"c"⟩, none⟩], .left, .sequence ⟨"s"⟩⟩,
      by decide +kernel⟩
  have hspelled : leaflet.IsSpelled leafletText :=
    ⟨leafletDocument, isConfig_leafletDocument, isText_leafletText⟩
  exact ⟨hrange, hvalid, hspelled, spellings_are_read hrange hvalid hspelled⟩

end Config

end NestedSet
