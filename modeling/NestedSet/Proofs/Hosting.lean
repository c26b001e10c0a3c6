import Mathlib
import NestedSet.Proofs.Ledger

/-!
# Rows that hold nodes

The columns that a sound schema names are all there and all different. So an
assignment to one of them changes one part of a record, and a new row is the
node that it was meant to be.
-/

set_option autoImplicit false

namespace NestedSet

/-! ### The columns of a table -/

namespace Column

theorem items_ne_nil (depth : Nat) (ts : List Token) : items depth ts ≠ [] := by
  fun_induction items depth ts <;> simp

theorem name_constrain (c : Column) (ts : List Token) : (constrain c ts).name = c.name := by
  fun_induction constrain c ts <;> simp_all

theorem exists_declared (name : Identifier) (declaration : String) :
    ∃ c more, declared name declaration = c :: more ∧ c.name = name := by
  unfold declared
  split
  · rename_i h
    exact absurd h (items_ne_nil 0 _)
  · exact ⟨_, _, rfl, name_constrain _ _⟩

theorem find?_key {columns : List Column} (hnodup : (columns.map key).Nodup) {c : Column}
    (hc : c ∈ columns) : columns.find? (·.key == c.key) = some c := by
  induction columns with
  | nil => cases hc
  | cons d rest ih =>
    rw [List.map_cons, List.nodup_cons] at hnodup
    rcases List.mem_cons.1 hc with rfl | hc
    · simp
    · have hne : d.key ≠ c.key := fun he => hnodup.1 (he ▸ List.mem_map_of_mem hc)
      rw [List.find?_cons_of_neg (by simpa using hne)]
      exact ih hnodup.2 hc

theorem lookup_map_key {α : Type} {columns : List Column} (hnodup : (columns.map key).Nodup)
    {c : Column} (hc : c ∈ columns) (value : Column → α) :
    (columns.map fun c => (c.key, value c)).lookup c.key = some (value c) := by
  induction columns with
  | nil => cases hc
  | cons d rest ih =>
    rw [List.map_cons, List.nodup_cons] at hnodup
    rcases List.mem_cons.1 hc with rfl | hc
    · simp
    · have hne : d.key ≠ c.key := fun he => hnodup.1 (he ▸ List.mem_map_of_mem hc)
      have hbeq : (c.key == d.key) = false := by simpa using hne.symm
      rw [List.map_cons, List.lookup_cons, hbeq]
      exact ih hnodup.2 hc

end Column

theorem Table.nodup_of_repeated? {taken : List String} {columns : List Identifier}
    (h : repeated? taken columns = none) :
    (columns.map Identifier.key).Nodup ∧ ∀ c ∈ columns, c.key ∉ taken := by
  induction columns generalizing taken with
  | nil => simp
  | cons c rest ih =>
    rw [repeated?] at h
    by_cases hc : c.key ∈ taken
    · simp [hc] at h
    · rw [if_neg hc] at h
      obtain ⟨hnodup, hfree⟩ := ih h
      constructor
      · rw [List.map_cons, List.nodup_cons]
        refine ⟨?_, hnodup⟩
        intro hmem
        obtain ⟨d, hd, hk⟩ := List.mem_map.1 hmem
        exact hfree d hd (by simp [hk])
      · intro d hd
        rcases List.mem_cons.1 hd with rfl | hd
        · exact hc
        · exact fun hmem => hfree d hd (List.mem_cons_of_mem _ hmem)

theorem Table.revised_congr {α : Type} {t : Table} {u : Revision Row} (f : Row → α)
    (h : ∀ c ∈ u.columns, ∀ v r, f (t.assign c v r) = f r) (r : Row) :
    f (t.revised u r) = f r := by
  obtain ⟨selects, sets⟩ := u
  suffices hfold : ∀ old new : Row,
      f (sets.foldl (fun new x => t.assign x.1 (x.2 old) new) new) = f new from hfold r r
  change ∀ c ∈ sets.map (·.1), _ at h
  induction sets with
  | nil => exact fun old new => rfl
  | cons x rest ih =>
    intro old new
    rw [List.map_cons, List.forall_mem_cons] at h
    rw [List.foldl_cons, ih h.2, h.1]

namespace Schema

/-- A schema whose columns and fields can be told apart, whose columns have all that their types
say, and whose sequence is another table. -/
structure Sound (s : Schema) : Prop where
  distinct : (Table.ofSchema s).duplicate? = none
  fields : (s.fields.map (·.name)).Nodup
  covered : s.IsCovered
  sequence : ∀ name, s.ids = .sequence name → name.key ≠ s.table.key

/-- The columns of the table are those that the schema declares. -/
structure Declares (s : Schema) (t : Table) : Prop where
  id : t.id = s.id
  columns : t.columns = Table.columnsOf s

variable {s : Schema} {t : Table}

theorem declares_ofSchema (s : Schema) : s.Declares (Table.ofSchema s) := ⟨rfl, rfl⟩

theorem fields_sublist (fields : List Field) :
    (fields.map (·.column)).Sublist
      ((fields.flatMap fun f => Column.declared f.column (f.sqlType.getD "")).map (·.name)) := by
  induction fields with
  | nil => exact List.nil_sublist _
  | cons f rest ih =>
    obtain ⟨c, more, hdeclared, hname⟩ := Column.exists_declared f.column (f.sqlType.getD "")
    rw [List.flatMap_cons, hdeclared, List.map_cons, List.cons_append, List.map_cons, hname,
      List.map_append]
    exact (ih.trans (List.sublist_append_right _ _)).cons_cons _

theorem name_partitionColumn (p : Partition) : (Table.partitionColumn p).name = p.column := by
  unfold Table.partitionColumn
  split <;> rfl

theorem columns_sublist (s : Schema) : s.columns.Sublist (Table.ofSchema s).names := by
  have hpartition : (s.partition.map Table.partitionColumn).toList.map (·.name) =
      (s.partition.map (·.column)).toList := by
    cases s.partition <;> simp [name_partitionColumn]
  have hnames : (Table.ofSchema s).names = s.structuralColumns ++
      (s.partition.map (·.column)).toList ++
      (s.fields.flatMap fun f => Column.declared f.column (f.sqlType.getD "")).map (·.name) := by
    simp [Table.names, Table.ofSchema, Table.columnsOf, structuralColumns, ← hpartition]
  rw [hnames]
  exact (fields_sublist s.fields).append_left _

namespace Sound

theorem names_nodup (hs : s.Sound) : ((Table.ofSchema s).names.map Identifier.key).Nodup := by
  obtain ⟨hnodup, hfree⟩ := Table.nodup_of_repeated? hs.distinct
  rw [Table.names, List.map_cons, List.nodup_cons]
  refine ⟨?_, hnodup⟩
  intro hmem
  obtain ⟨c, hc, hk⟩ := List.mem_map.1 hmem
  exact hfree c hc (by simp [hk])

theorem keys_nodup (hs : s.Sound) : (s.columns.map Identifier.key).Nodup :=
  (s.columns_sublist.map _).nodup hs.names_nodup

theorem key_ne (hs : s.Sound) {a b : Identifier} (h : [a, b].Sublist s.columns) :
    a.key ≠ b.key := by
  have hnodup := (h.map Identifier.key).nodup hs.keys_nodup
  simpa using hnodup

theorem columnKeys_nodup (hs : s.Sound) : ((Table.columnsOf s).map Column.key).Nodup := by
  have h := (List.nodup_cons.1 hs.names_nodup).2
  rw [List.map_map] at h
  exact h

theorem column? (hs : s.Sound) (hd : s.Declares t) {c : Column} (hc : c ∈ Table.columnsOf s) :
    t.column? c.name.key = some c := by
  rw [Table.column?, hd.columns]
  exact Column.find?_key hs.columnKeys_nodup hc

theorem isId_column (hs : s.Sound) (hd : s.Declares t) {c : Column}
    (hc : c ∈ Table.columnsOf s) : t.isId c.name = false := by
  have hne : c.name.key ≠ t.id.key := by
    have h := (List.nodup_cons.1 hs.names_nodup).1
    rw [hd.id]
    exact fun he => h (he ▸ List.mem_map_of_mem (List.mem_map_of_mem hc))
  simp [Table.isId, hne, hs.column? hd hc]

end Sound

theorem isId_id (hd : s.Declares t) : t.isId s.id = true := by
  simp [Table.isId, hd.id]

theorem left_mem (s : Schema) :
    ⟨s.left, .numeric, true, false, .null, .binary⟩ ∈ Table.columnsOf s := by
  simp [Table.columnsOf]

theorem right_mem (s : Schema) :
    ⟨s.right, .numeric, true, false, .null, .binary⟩ ∈ Table.columnsOf s := by
  simp [Table.columnsOf]

theorem parent_mem (s : Schema) :
    ⟨s.parent, .numeric, false, false, .null, .binary⟩ ∈ Table.columnsOf s := by
  simp [Table.columnsOf]

theorem partitionColumn_mem {p : Partition} (hp : s.partition = some p) :
    Table.partitionColumn p ∈ Table.columnsOf s := by
  simp [Table.columnsOf, hp]

theorem exists_fieldColumn {f : Field} (hf : f ∈ s.fields) :
    ∃ c ∈ Table.columnsOf s, c.name = f.column := by
  obtain ⟨c, more, hdeclared, hname⟩ := Column.exists_declared f.column (f.sqlType.getD "")
  refine ⟨c, ?_, hname⟩
  rw [Table.columnsOf, List.mem_append, List.mem_flatMap]
  exact .inr ⟨f, hf, by simp [hdeclared]⟩

namespace Sound

theorem structural_ne (hs : s.Sound) :
    (s.id.key ≠ s.left.key ∧ s.id.key ≠ s.right.key ∧ s.id.key ≠ s.parent.key) ∧
      (s.left.key ≠ s.right.key ∧ s.left.key ≠ s.parent.key) ∧ s.right.key ≠ s.parent.key := by
  have h := hs.keys_nodup
  rw [columns, List.append_assoc, List.map_append] at h
  simpa [structuralColumns] using (List.nodup_append.1 h).1

theorem partition_ne (hs : s.Sound) {p : Partition} (hp : s.partition = some p) {c : Identifier}
    (hc : c ∈ s.structuralColumns) : p.column.key ≠ c.key := by
  refine (hs.key_ne ?_).symm
  rw [columns, hp]
  exact ((List.singleton_sublist.2 hc).append (List.Sublist.refl [p.column])).trans
    (List.sublist_append_left _ _)

theorem field_ne (hs : s.Sound) {f : Field} (hf : f ∈ s.fields) {c : Identifier}
    (hc : c ∈ s.structuralColumns ++ (s.partition.map (·.column)).toList) :
    f.column.key ≠ c.key := by
  refine (hs.key_ne ?_).symm
  rw [columns]
  exact (List.singleton_sublist.2 hc).append
    (List.singleton_sublist.2 (List.mem_map_of_mem hf))

theorem field_inj (hs : s.Sound) {f g : Field} (hf : f ∈ s.fields) (hg : g ∈ s.fields)
    (h : f.column.key = g.column.key) : f = g := by
  have hnodup := hs.keys_nodup
  rw [columns, List.map_append] at hnodup
  have hfields := (List.nodup_append.1 hnodup).2.1
  rw [List.map_map] at hfields
  exact List.inj_on_of_nodup_map hfields hf hg h

end Sound

/-! ### Records under assignments -/

theorem value_cell (hs : s.Sound) (hd : s.Declares t) {c : Column} (hc : c ∈ Table.columnsOf s)
    (r : Row) : (t.cell c.name r).value = r.get c.name.key := by
  rw [Table.cell_of_column? (hs.isId_column hd hc) (hs.column? hd hc)]

theorem cell_assign_of_ne (hs : s.Sound) (hd : s.Declares t) {c : Column}
    (hc : c ∈ Table.columnsOf s) {other : Identifier} (h : other.key ≠ c.name.key) (v : Value)
    (r : Row) : t.cell other (t.assign c.name v r) = t.cell other r :=
  Table.cell_assign_of_ne h (.inl (hs.isId_column hd hc)) v r

theorem cell_assign_self (hs : s.Sound) (hd : s.Declares t) {c : Column}
    (hc : c ∈ Table.columnsOf s) (v : Value) (r : Row) :
    t.cell c.name (t.assign c.name v r) = { t.cell c.name r with value := c.hold v } := by
  have hid := hs.isId_column hd hc
  have hcolumn := hs.column? hd hc
  rw [Table.cell_assign_self hid hcolumn, Table.cell_of_column? hid hcolumn]

theorem inScope_assign (hs : s.Sound) (hd : s.Declares t) {c : Column}
    (hc : c ∈ Table.columnsOf s) (h : ∀ p, s.partition = some p → p.column.key ≠ c.name.key)
    (v : Value) (r : Row) : s.inScope t (t.assign c.name v r) = s.inScope t r := by
  cases hp : s.partition with
  | none => simp [inScope, hp]
  | some p => simp [inScope, hp, cell_assign_of_ne hs hd hc (h p hp)]

theorem payload_assign_of_ne (hs : s.Sound) (hd : s.Declares t) {c : Column}
    (hc : c ∈ Table.columnsOf s) (h : ∀ f ∈ s.fields, f.column.key ≠ c.name.key) (v : Value)
    (r : Row) : (s.record t (t.assign c.name v r)).payload = (s.record t r).payload := by
  apply List.map_congr_left
  intro f hf
  rw [cell_assign_of_ne hs hd hc (h f hf)]

theorem payload_assign_structural (hs : s.Sound) (hd : s.Declares t) {c : Column}
    (hc : c ∈ Table.columnsOf s) (h : c.name ∈ s.structuralColumns) (v : Value) (r : Row) :
    (s.record t (t.assign c.name v r)).payload = (s.record t r).payload :=
  payload_assign_of_ne hs hd hc (fun _ hf => hs.field_ne hf (List.mem_append_left _ h)) v r

theorem record_assign_left (hs : s.Sound) (hd : s.Declares t) (n : Int) (r : Row) :
    s.record t (t.assign s.left (.integer n) r) =
      { s.record t r with left := { (s.record t r).left with value := .integer n } } := by
  obtain ⟨⟨hid, -, -⟩, ⟨hright, hparent⟩, -⟩ := hs.structural_ne
  have hpayload := payload_assign_structural hs hd s.left_mem (by simp [structuralColumns])
    (.integer n) r
  have hothers {other : Identifier} (h : other.key ≠ s.left.key) :=
    cell_assign_of_ne hs hd s.left_mem h (.integer n) r
  simp only [record, Record.mk.injEq] at *
  exact ⟨hothers hid, cell_assign_self hs hd s.left_mem _ r, hothers hright.symm,
    hothers hparent.symm, hpayload⟩

theorem record_assign_right (hs : s.Sound) (hd : s.Declares t) (n : Int) (r : Row) :
    s.record t (t.assign s.right (.integer n) r) =
      { s.record t r with right := { (s.record t r).right with value := .integer n } } := by
  obtain ⟨⟨-, hid, -⟩, ⟨hleft, -⟩, hparent⟩ := hs.structural_ne
  have hpayload := payload_assign_structural hs hd s.right_mem (by simp [structuralColumns])
    (.integer n) r
  have hothers {other : Identifier} (h : other.key ≠ s.right.key) :=
    cell_assign_of_ne hs hd s.right_mem h (.integer n) r
  simp only [record, Record.mk.injEq] at *
  exact ⟨hothers hid, hothers hleft, cell_assign_self hs hd s.right_mem _ r,
    hothers hparent.symm, hpayload⟩

theorem record_assign_parent (hs : s.Sound) (hd : s.Declares t) (n : Int) (r : Row) :
    s.record t (t.assign s.parent (.integer n) r) =
      { s.record t r with parent := { (s.record t r).parent with value := .integer n } } := by
  obtain ⟨⟨-, -, hid⟩, ⟨-, hleft⟩, hright⟩ := hs.structural_ne
  have hpayload := payload_assign_structural hs hd s.parent_mem (by simp [structuralColumns])
    (.integer n) r
  have hothers {other : Identifier} (h : other.key ≠ s.parent.key) :=
    cell_assign_of_ne hs hd s.parent_mem h (.integer n) r
  simp only [record, Record.mk.injEq] at *
  exact ⟨hothers hid, hothers hleft, hothers hright, cell_assign_self hs hd s.parent_mem _ r,
    hpayload⟩

theorem put_map {α β : Type} [DecidableEq α] {keys : List α} {name : α → String}
    (hnodup : (keys.map name).Nodup) {k : α} (hk : k ∈ keys) (value : α → β) (v : β) :
    Entries.put (name k) v (keys.map fun a => (name a, value a)) =
      keys.map fun a => (name a, if a = k then v else value a) := by
  induction keys with
  | nil => cases hk
  | cons a rest ih =>
    rw [List.map_cons, List.nodup_cons] at hnodup
    rcases List.mem_cons.1 hk with rfl | hk
    · have hrest : ∀ b ∈ rest, b ≠ k := fun b hb he => hnodup.1 (he ▸ List.mem_map_of_mem hb)
      have hsame : (rest.map fun b => (name b, value b)) =
          rest.map fun b => (name b, if b = k then v else value b) :=
        List.map_congr_left fun b hb => by rw [if_neg (hrest b hb)]
      simp [Entries.put, hsame]
    · have hne : a ≠ k := fun he => hnodup.1 (he ▸ List.mem_map_of_mem hk)
      have hname : name a ≠ name k := fun he => hnodup.1 (he ▸ List.mem_map_of_mem hk)
      simp [Entries.put, hname, hne, ih hnodup.2 hk]

theorem record_assign_field (hs : s.Sound) (hd : s.Declares t) {f : Field} (hf : f ∈ s.fields)
    (v : Value) (r : Row) :
    s.record t (t.assign f.column v r) =
      { s.record t r with
        payload := Entries.put f.name (s.held f v) (s.record t r).payload } := by
  obtain ⟨c, hc, hname⟩ := exists_fieldColumn hf
  have hothers : ∀ other ∈ s.structuralColumns,
      t.cell other (t.assign f.column v r) = t.cell other r := by
    intro other hother
    rw [← hname]
    refine cell_assign_of_ne hs hd hc ?_ v r
    rw [hname]
    exact (hs.field_ne hf (List.mem_append_left _ hother)).symm
  have hheld : s.held f v = c.hold v := by
    rw [held, Table.hold, ← hname, hs.column? s.declares_ofSchema hc]
  have hpayload :
      (s.fields.map fun g => (g.name, (t.cell g.column (t.assign f.column v r)).value)) =
      Entries.put f.name (s.held f v)
        (s.fields.map fun g => (g.name, (t.cell g.column r).value)) := by
    rw [put_map hs.fields hf]
    apply List.map_congr_left
    intro g hg
    by_cases hgf : g = f
    · subst hgf
      rw [if_pos rfl, hheld, ← hname, cell_assign_self hs hd hc]
    · have hne : g.column.key ≠ c.name.key := by
        rw [hname]
        exact fun he => hgf (hs.field_inj hg hf he)
      rw [if_neg hgf, ← hname, cell_assign_of_ne hs hd hc hne]
  simp only [record, Record.mk.injEq]
  exact ⟨hothers _ (by simp [structuralColumns]), hothers _ (by simp [structuralColumns]),
    hothers _ (by simp [structuralColumns]), hothers _ (by simp [structuralColumns]), hpayload⟩

/-! ### Revisions -/

def written (s : Schema) : List Identifier := [s.left, s.right, s.parent] ++ s.fields.map (·.column)

theorem exists_written {c : Identifier} (hs : s.Sound) (hc : c ∈ s.written) :
    ∃ column ∈ Table.columnsOf s, column.name = c ∧
      ∀ p, s.partition = some p → p.column.key ≠ c.key := by
  have hstructural : ∀ c ∈ s.structuralColumns, ∀ p, s.partition = some p →
      p.column.key ≠ c.key := fun c hc p hp => hs.partition_ne hp hc
  simp only [written, List.mem_append, List.mem_cons, List.not_mem_nil, or_false,
    List.mem_map] at hc
  rcases hc with (rfl | rfl | rfl) | ⟨f, hf, rfl⟩
  · exact ⟨_, s.left_mem, rfl, hstructural _ (by simp [structuralColumns])⟩
  · exact ⟨_, s.right_mem, rfl, hstructural _ (by simp [structuralColumns])⟩
  · exact ⟨_, s.parent_mem, rfl, hstructural _ (by simp [structuralColumns])⟩
  · obtain ⟨column, hcolumn, hname⟩ := exists_fieldColumn hf
    exact ⟨column, hcolumn, hname, fun p hp => (hs.field_ne hf (by simp [hp])).symm⟩

theorem not_isId_of_written {c : Identifier} (hs : s.Sound) (hd : s.Declares t)
    (hc : c ∈ s.written) : t.isId c = false := by
  obtain ⟨column, hcolumn, rfl, -⟩ := exists_written hs hc
  exact hs.isId_column hd hcolumn

/-- A revision of such columns leaves a row in its place and in its scope. -/
theorem frame_revised (hs : s.Sound) (hd : s.Declares t) {u : Revision Row}
    (hu : ∀ c ∈ u.columns, c ∈ s.written) (r : Row) :
    (t.revised u r).id = r.id ∧ s.inScope t (t.revised u r) = s.inScope t r := by
  constructor
  · refine Table.revised_congr (·.id) (fun c hc v r => ?_) r
    rw [Table.assign, not_isId_of_written hs hd (hu c hc)]
    rfl
  · refine Table.revised_congr (s.inScope t) (fun c hc v r => ?_) r
    obtain ⟨column, hcolumn, hname, hpartition⟩ := exists_written hs (hu c hc)
    rw [← hname, inScope_assign hs hd hcolumn (by rwa [hname])]

theorem payload_revised (hs : s.Sound) (hd : s.Declares t) {values : List (Field × Value)}
    (hv : ∀ x ∈ values, x.1 ∈ s.fields) (r : Row) :
    s.record t (values.foldl (fun new x => t.assign x.1.column x.2 new) r) =
      { s.record t r with payload := s.overwrite values (s.record t r).payload } := by
  induction values generalizing r with
  | nil => simp only [overwrite, List.foldl_nil]
  | cons x rest ih =>
    rw [List.forall_mem_cons] at hv
    simp only [overwrite, List.foldl_cons] at ih ⊢
    rw [ih hv.2, record_assign_field hs hd hv.1]

end Schema

/-- The record has the id and the markers of a node, whatever it holds besides. -/
structure Record.Outlines (r : Record) (n : Node) : Prop where
  id : r.id.value = .integer n.id
  left : r.left.value = .integer n.left
  right : r.right.value = .integer n.right

theorem Record.outlines_of_node {r : Record} {n : Node} (h : r.node = .ok n) : r.Outlines n := by
  obtain ⟨hid, hleft, hright, -⟩ := node_eq_ok_iff.1 h
  exact ⟨hid, hleft, hright⟩

theorem Schema.get_of_outlines {s : Schema} {t : Table} (hs : s.Sound) (hd : s.Declares t)
    {r : Row} {n : Node} (h : (s.record t r).Outlines n) :
    r.get s.left.key = .integer n.left ∧ r.get s.right.key = .integer n.right :=
  ⟨(value_cell hs hd s.left_mem r).symm.trans h.left,
    (value_cell hs hd s.right_mem r).symm.trans h.right⟩

namespace Change

variable {s : Schema} {t : Table}

def onRows (c : Change) (s : Schema) (t : Table) : Revision Row :=
  (c.revision s).through (s.inScope t) (s.record t)

def isStructural : Change → Bool
  | payload .. => false
  | _ => true

theorem proper_of_isStructural {c : Change} (hc : c.isStructural = true) :
    (Request.revise c).Proper s := by
  cases c with
  | payload id values => cases hc
  | _ => trivial

theorem structural_onRows {c : Change} (hc : c.isStructural = true) :
    ∀ column ∈ (c.onRows s t).columns, column ∈ [s.left, s.right, s.parent] := by
  rw [onRows, Revision.columns_through]
  cases c with
  | payload id values => cases hc
  | _ =>
    simp [revision, Revision.columns, Revision.pushLefts, Revision.pushRights, Revision.reparent,
      Revision.shiftInside, Revision.pullFollowing, Revision.pullEnclosing, Revision.addLeft,
      Revision.addRight]

theorem exists_field_of_payload {id : Int} {values : List (Field × Value)}
    (hv : ∀ x ∈ values, x.1 ∈ s.fields) {column : Identifier}
    (hcolumn : column ∈ ((payload id values).onRows s t).columns) :
    ∃ f ∈ s.fields, f.column = column := by
  rw [onRows, Revision.columns_through] at hcolumn
  simp only [revision, Revision.payload, Revision.columns, List.map_map, List.mem_map] at hcolumn
  obtain ⟨x, hx, rfl⟩ := hcolumn
  exact ⟨x.1, hv x hx, rfl⟩

theorem written_onRows {c : Change} (hc : (Request.revise c).Proper s) :
    ∀ column ∈ (c.onRows s t).columns, column ∈ s.written := by
  intro column hcolumn
  cases c with
  | payload id values =>
    obtain ⟨f, hf, rfl⟩ := exists_field_of_payload hc hcolumn
    exact List.mem_append_right _ (List.mem_map_of_mem hf)
  | _ => exact List.mem_append_left _ (structural_onRows rfl column hcolumn)

theorem selects_eq_picks (c : Change) {r : Record} {n : Node} (h : r.Outlines n) :
    (c.revision s).selects r = c.picks n := by
  obtain ⟨hid, hleft, hright⟩ := h
  cases c with
  | pushLefts pivot width => exact Cell.exceeds_of_integer hleft pivot
  | pushRights pivot width => exact Cell.exceeds_of_integer hright pivot
  | reparent id parent => exact Cell.equals_of_integer hid id
  | shiftInside subtree offset =>
    exact congrArg₂ and (Cell.atLeast_of_integer hleft _) (Cell.atMost_of_integer hright _)
  | pullFollowing gap => exact Cell.exceeds_of_integer hleft _
  | pullEnclosing gap =>
    exact congrArg₂ and (Cell.isBelow_of_integer hleft _) (Cell.exceeds_of_integer hright _)
  | payload id values => exact Cell.equals_of_integer hid id

theorem selects_onRows (c : Change) {r : Row} (hin : s.inScope t r = true) {n : Node}
    (h : (s.record t r).Outlines n) : (c.onRows s t).selects r = c.picks n := by
  simp [onRows, Revision.through, hin, selects_eq_picks c h]

theorem revised_onRows (c : Change) (r : Row) :
    t.revised (c.onRows s t) r =
      (c.revision s).sets.foldl (fun new x => t.assign x.1 (x.2 (s.record t r)) new) r := by
  rw [Table.revised, onRows, Revision.through, List.foldl_map]

/-- A change of markers makes of the record what it makes of the node that the record outlines,
and nothing else. -/
theorem record_revised (hs : s.Sound) (hd : s.Declares t) {c : Change}
    (hc : c.isOfMarkers = true) {r : Row} {n : Node} (h : (s.record t r).Outlines n)
    (hleft : IsStorable (c.revised s n).left) (hright : IsStorable (c.revised s n).right) :
    s.record t (t.revised (c.onRows s t) r) =
      { s.record t r with
        left := { (s.record t r).left with value := .integer (c.revised s n).left }
        right := { (s.record t r).right with value := .integer (c.revised s n).right } } := by
  have hpushed {k : Int} (hk : IsStorable (n.left + k)) :
      (s.record t r).left.value.plus k = .integer (n.left + k) := by
    rw [h.left, Value.plus_integer hk]
  have hraised {k : Int} (hk : IsStorable (n.right + k)) :
      (s.record t r).right.value.plus k = .integer (n.right + k) := by
    rw [h.right, Value.plus_integer hk]
  have hshifted {k : Int} (hl : IsStorable (n.left + k)) (hr : IsStorable (n.right + k)) :
      s.record t (t.assign s.right ((s.record t r).right.value.plus k)
        (t.assign s.left ((s.record t r).left.value.plus k) r)) =
        { s.record t r with
          left := { (s.record t r).left with value := .integer (n.left + k) }
          right := { (s.record t r).right with value := .integer (n.right + k) } } := by
    rw [hpushed hl, hraised hr, Schema.record_assign_right hs hd, Schema.record_assign_left hs hd]
  rw [revised_onRows]
  cases c with
  | pushLefts pivot width =>
    simp only [revision, Revision.pushLefts, Revision.addLeft, List.foldl_cons, List.foldl_nil]
    rw [hpushed hleft, Schema.record_assign_left hs hd, revised, ← h.right]
  | pushRights pivot width =>
    simp only [revision, Revision.pushRights, Revision.addRight, List.foldl_cons, List.foldl_nil]
    rw [hraised hright, Schema.record_assign_right hs hd, revised, ← h.left]
  | shiftInside subtree offset =>
    simp only [revision, Revision.shiftInside, Revision.addLeft, Revision.addRight,
      List.foldl_cons, List.foldl_nil]
    exact hshifted hleft hright
  | pullFollowing gap =>
    simp only [revision, Revision.pullFollowing, Revision.addLeft, Revision.addRight,
      List.foldl_cons, List.foldl_nil]
    exact hshifted hleft hright
  | pullEnclosing gap =>
    simp only [revision, Revision.pullEnclosing, Revision.addRight, List.foldl_cons,
      List.foldl_nil]
    rw [hraised hright, Schema.record_assign_right hs hd, revised, ← h.left]
    rfl
  | _ => cases hc

/-- The record of a revised row is the node that the change makes of the row's node. -/
theorem node_revised (hs : s.Sound) (hd : s.Declares t) {c : Change}
    (hc : (Request.revise c).Proper s) {r : Row} {n : Node} (h : (s.record t r).node = .ok n)
    (hn : c.isOfMarkers = true →
      IsStorable (c.revised s n).left ∧ IsStorable (c.revised s n).right) :
    (s.record t (t.revised (c.onRows s t) r)).node = .ok (c.revised s n) := by
  obtain ⟨hid, hleft, hright, hparent, hpayload⟩ := Record.node_eq_ok_iff.1 h
  have hmarkers : c.isOfMarkers = true →
      (s.record t (t.revised (c.onRows s t) r)).node = .ok
        { n with left := (c.revised s n).left, right := (c.revised s n).right } := by
    intro hc
    rw [record_revised hs hd hc (Record.outlines_of_node h) (hn hc).1 (hn hc).2,
      Record.node_eq_ok_iff]
    exact ⟨hid, rfl, rfl, hparent, hpayload⟩
  cases c with
  | reparent id parent =>
    rw [revised_onRows]
    simp only [revision, Revision.reparent, List.foldl_cons, List.foldl_nil]
    rw [Schema.record_assign_parent hs hd, Record.node_eq_ok_iff]
    exact ⟨hid, hleft, hright, rfl, hpayload⟩
  | payload id values =>
    rw [revised_onRows]
    simp only [revision, Revision.payload, List.foldl_map]
    rw [Schema.payload_revised hs hd hc, Record.node_eq_ok_iff]
    exact ⟨hid, hleft, hright, hparent, congrArg (s.overwrite values) hpayload⟩
  | _ => exact hmarkers rfl

end Change

/-! ### New rows -/

namespace Table

variable {s : Schema} {t : Table}

def given? (values : List (Identifier × Value)) (column : Identifier) : Option Value :=
  (values.find? fun (other, _) => other.key == column.key).map (·.2)

theorem given?_append (values more : List (Identifier × Value)) (column : Identifier) :
    given? (values ++ more) column = (given? values column).or (given? more column) := by
  simp only [given?, List.find?_append, Option.map_or]

theorem given?_cons (x : Identifier × Value) (values : List (Identifier × Value))
    (column : Identifier) :
    given? (x :: values) column =
      if x.1.key = column.key then some x.2 else given? values column := by
  by_cases h : x.1.key = column.key <;> simp [given?, h]

theorem cells_newRow (t : Table) (id : Int) (values : List (Identifier × Value)) :
    (t.newRow id values).cells =
      t.columns.map fun c => (c.key, ((given? values c.name).map c.hold).getD c.initial) := by
  apply List.map_congr_left
  intro c _
  have hgiven : given? values c.name =
      (values.find? fun (column, _) => column.key == c.key).map (·.2) := rfl
  rw [hgiven]
  cases values.find? fun (column, _) => column.key == c.key <;> rfl

theorem cell_newRow (hs : s.Sound) (hd : s.Declares t) {c : Column} (hc : c ∈ columnsOf s)
    (id : Int) (values : List (Identifier × Value)) :
    (t.cell c.name (t.newRow id values)).value =
      ((given? values c.name).map c.hold).getD c.initial := by
  rw [cell_of_column? (hs.isId_column hd hc) (hs.column? hd hc), Row.get, cells_newRow, hd.columns,
    ← Column.key, Column.lookup_map_key hs.columnKeys_nodup hc]
  rfl

end Table

namespace Schema

variable {s : Schema} {t : Table}

theorem given?_field (hs : s.Sound) {values : List (Field × Value)}
    (hv : ∀ x ∈ values, x.1 ∈ s.fields) {f : Field} (hf : f ∈ s.fields) :
    Table.given? (values.map fun (f, v) => (f.column, v)) f.column = values.lookup f := by
  induction values with
  | nil => rfl
  | cons x rest ih =>
    rw [List.forall_mem_cons] at hv
    rw [List.map_cons, Table.given?_cons, List.lookup_cons, ih hv.2]
    by_cases h : x.1 = f
    · simp [h]
    · have hne : x.1.column.key ≠ f.column.key := fun he => h (hs.field_inj hv.1 hf he)
      have hbeq : (f == x.1) = false := by simpa using Ne.symm h
      simp [hne, hbeq]

theorem given?_eq_none {values : List (Identifier × Value)} {column : Identifier}
    (h : ∀ x ∈ values, x.1.key ≠ column.key) : Table.given? values column = none := by
  induction values with
  | nil => rfl
  | cons x rest ih =>
    rw [List.forall_mem_cons] at h
    rw [Table.given?_cons, if_neg h.1, ih h.2]

theorem equals_partition {p : Partition} {name : String} {v : Value}
    (h : v = (Table.partitionColumn p).hold p.key.value) :
    (⟨name, (Table.partitionColumn p).affinity, v⟩ : Cell).equals p.key.value = true := by
  obtain ⟨column, key⟩ := p
  subst h
  cases key with
  | integer n =>
    change (Value.integer n).equals (.integer n) = true
    simp [Value.equals_integer]
  | text a =>
    change (Value.text a).equals (.text a) = true
    simp [Value.equals, Value.same, Value.le]

section NewRow

variable {values : List (Field × Value)} (id : Option Int) (bounds : Bounds) (parent : Option Int)

theorem given?_entry {column : Identifier} (h : s.id.key ≠ column.key) :
    Table.given? (s.entry id bounds parent values) column =
      Table.given? ([(s.left, .integer bounds.left), (s.right, .integer bounds.right),
        (s.parent, (parent.map Value.integer).getD .null)] ++
        (s.partition.map fun p => (p.column, p.key.value)).toList ++
        values.map fun (f, v) => (f.column, v)) column := by
  rw [entry, List.append_assoc, List.append_assoc, Table.given?_append, given?_eq_none,
    Option.none_or, ← List.append_assoc]
  cases id <;> simp [h]

theorem inScope_newRow (values : List (Field × Value)) (hs : s.Sound) (hd : s.Declares t)
    (new : Int) :
    s.inScope t (t.newRow new (s.entry id bounds parent values)) = true := by
  cases hp : s.partition with
  | none => simp [inScope, hp]
  | some p =>
    have hpart {c : Identifier} (hc : c ∈ s.structuralColumns) : c.key ≠ p.column.key :=
      (hs.partition_ne hp hc).symm
    have hid := hpart (show s.id ∈ s.structuralColumns by simp [structuralColumns])
    have hleft := hpart (show s.left ∈ s.structuralColumns by simp [structuralColumns])
    have hright := hpart (show s.right ∈ s.structuralColumns by simp [structuralColumns])
    have hparent := hpart (show s.parent ∈ s.structuralColumns by simp [structuralColumns])
    have hc := partitionColumn_mem hp
    have h := Table.cell_newRow hs hd hc new (s.entry id bounds parent values)
    rw [name_partitionColumn, given?_entry id bounds parent hid] at h
    simp only [hp, Option.map_some, Option.toList_some, List.cons_append, List.nil_append,
      Table.given?_cons, hleft, hright, hparent, if_false, if_true, Option.getD_some] at h
    have hcolumn := hs.column? hd hc
    have hnot := hs.isId_column hd hc
    rw [name_partitionColumn] at hcolumn hnot
    rw [Table.cell_of_column? hnot hcolumn] at h
    simp only [inScope, hp, Option.all_some, Table.cell_of_column? hnot hcolumn]
    exact equals_partition h

theorem payload_newRow (hs : s.Sound) (hd : s.Declares t) (hv : ∀ x ∈ values, x.1 ∈ s.fields)
    (new : Int) :
    (s.record t (t.newRow new (s.entry id bounds parent values))).payload =
      s.newPayload values := by
  apply List.map_congr_left
  intro f hf
  obtain ⟨c, hc, hname⟩ := exists_fieldColumn hf
  have hother : ∀ column ∈ s.structuralColumns ++ (s.partition.map (·.column)).toList,
      column.key ≠ f.column.key := fun column hcolumn => (hs.field_ne hf hcolumn).symm
  have hbefore : Table.given? ([(s.left, .integer bounds.left), (s.right, .integer bounds.right),
      (s.parent, (parent.map Value.integer).getD .null)] ++
      (s.partition.map fun p => (p.column, p.key.value)).toList) f.column = none := by
    refine given?_eq_none ?_
    intro x hx
    apply hother
    cases hp : s.partition <;> simp [hp, structuralColumns] at hx ⊢ <;> grind
  have hcolumn := hs.column? s.declares_ofSchema hc
  have h := Table.cell_newRow hs hd hc new (s.entry id bounds parent values)
  rw [hname, given?_entry id bounds parent (hother _ (by simp [structuralColumns])),
    Table.given?_append, hbefore, Option.none_or, given?_field hs hv hf] at h
  rw [h]
  rw [hname] at hcolumn
  simp only [unset, hcolumn, Option.map_some, Option.getD_some]
  cases values.lookup f with
  | none => rfl
  | some v => simp [held, Table.hold, hcolumn]

theorem node_newRow (hs : s.Sound) (hd : s.Declares t) (hv : ∀ x ∈ values, x.1 ∈ s.fields)
    (new : Int) :
    (s.record t (t.newRow new (s.entry id bounds parent values))).node =
      .ok ⟨new, bounds.left, bounds.right, parent, s.newPayload values⟩ := by
  obtain ⟨⟨hleft, hright, hparent⟩, ⟨hlr, hlp⟩, hrp⟩ := hs.structural_ne
  have hcell {c : Column} (hc : c ∈ Table.columnsOf s) :=
    Table.cell_newRow hs hd hc new (s.entry id bounds parent values)
  rw [Record.node_eq_ok_iff]
  refine ⟨?_, ?_, ?_, ?_, payload_newRow id bounds parent hs hd hv new⟩
  · simp [record, Table.cell_of_isId (isId_id hd), Table.newRow]
  · apply (hcell s.left_mem).trans
    rw [given?_entry id bounds parent hleft]
    simp [Table.given?_cons, Column.hold, Affinity.convert_numeric_integer]
  · apply (hcell s.right_mem).trans
    rw [given?_entry id bounds parent hright]
    simp [Table.given?_cons, hlr, Column.hold, Affinity.convert_numeric_integer]
  · apply (hcell s.parent_mem).trans
    rw [given?_entry id bounds parent hparent]
    cases parent <;>
      simp [Table.given?_cons, hlp, hrp, Column.hold, Affinity.convert_numeric_integer,
        Affinity.convert_null]

end NewRow

end Schema

end NestedSet
