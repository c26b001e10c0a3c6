import Mathlib
import NestedSet.Proofs.Standing

/-!
# Trees that share a table

Schemas that differ in the value of their partition alone see disjoint parts
of one table. Such a table is orderly if every part of it holds one tree or
none, and it stays so under every edit that is not refused a statement.
-/

set_option autoImplicit false

namespace NestedSet

namespace Schema

/-- Another tree of the same table: all columns are the same, and the values of both partitions
are of one kind. -/
structure Akin (s s' : Schema) : Prop where
  table : s'.table = s.table
  id : s'.id = s.id
  left : s'.left = s.left
  right : s'.right = s.right
  parent : s'.parent = s.parent
  fields : s'.fields = s.fields
  partition : s'.partition.map Table.partitionColumn = s.partition.map Table.partitionColumn

variable {s s' : Schema} {t t' : Table}

namespace Akin

theorem refl (s : Schema) : s.Akin s := ⟨rfl, rfl, rfl, rfl, rfl, rfl, rfl⟩

theorem of_common {s'' : Schema} (h : s.Akin s') (h' : s.Akin s'') : s'.Akin s'' :=
  ⟨h'.table.trans h.table.symm, h'.id.trans h.id.symm, h'.left.trans h.left.symm,
    h'.right.trans h.right.symm, h'.parent.trans h.parent.symm, h'.fields.trans h.fields.symm,
    h'.partition.trans h.partition.symm⟩

theorem columnsOf_eq (h : s.Akin s') : Table.columnsOf s' = Table.columnsOf s := by
  simp only [Table.columnsOf, h.left, h.right, h.parent, h.fields, h.partition]

theorem declares (h : s.Akin s') (hd : s.Declares t) : s'.Declares t :=
  ⟨hd.id.trans h.id.symm, hd.columns.trans h.columnsOf_eq.symm⟩

theorem sound (h : s.Akin s') (hs : s.Sound) (hfields : (s'.fields.map (·.name)).Nodup)
    (hsequence : ∀ name, s'.ids = .sequence name → name.key ≠ s'.table.key) : s'.Sound := by
  refine ⟨?_, hfields, by simpa only [IsCovered, h.fields] using hs.covered, hsequence⟩
  have hdistinct := hs.distinct
  simp only [Table.duplicate?, Table.ofSchema, h.id, h.columnsOf_eq] at hdistinct ⊢
  exact hdistinct

end Akin

end Schema

/-! ### Disjoint partitions -/

namespace Value

theorem size_of_equals_integer {v : Value} {a : Int} (h : v.equals (.integer a) = true) :
    v.size = (Value.integer a).size := by
  cases v with
  | null => cases h
  | integer n =>
    rw [equals_integer, decide_eq_true_eq] at h
    rw [h]
  | real r =>
    simp only [equals, same, le, rank, Bool.and_eq_true, Bool.or_eq_true, decide_eq_true_eq,
      Nat.lt_irrefl, false_or, beq_self_eq_true, true_and] at h
    exact Int.le_antisymm h.2.1 h.2.2
  | text s => simp [equals, same, le, rank] at h
  | blob bytes => simp [equals, same, le, rank] at h

theorem eq_of_equals_integer {v : Value} {a b : Int} (ha : v.equals (.integer a) = true)
    (hb : v.equals (.integer b) = true) : a = b := by
  have hsize := (size_of_equals_integer ha).symm.trans (size_of_equals_integer hb)
  have hunit : ∀ n, Nat.pow 2 n ≠ 0 := fun n => (Nat.two_pow_pos n).ne'
  exact Int.eq_of_mul_eq_mul_right (Int.natCast_ne_zero.2 (hunit _)) hsize

theorem eq_text_of_equals {v : Value} {a : String} (h : v.equals (.text a) = true) :
    v = .text a := by
  cases v with
  | null => cases h
  | text s =>
    simp only [equals, same, le, Bool.and_eq_true, decide_eq_true_eq] at h
    rw [String.le_antisymm h.2.1 h.2.2]
  | integer n => simp [equals, same, le, rank] at h
  | real r => simp [equals, same, le, rank] at h
  | blob bytes => simp [equals, same, le, rank] at h

end Value

theorem Cell.eq_of_equals_partition {c : Cell} {p p' : Partition}
    (hcolumn : Table.partitionColumn p' = Table.partitionColumn p)
    (haffinity : c.affinity = (Table.partitionColumn p).affinity)
    (h : c.equals p.key.value = true) (h' : c.equals p'.key.value = true) : p' = p := by
  obtain ⟨column, key⟩ := p
  obtain ⟨column', key'⟩ := p'
  obtain ⟨name, affinity, value⟩ := c
  cases key with
  | integer a =>
    cases key' with
    | integer b =>
      cases hcolumn
      cases haffinity
      rw [Value.eq_of_equals_integer h h']
    | text b => cases hcolumn
  | text a =>
    cases key' with
    | integer b => cases hcolumn
    | text b =>
      cases hcolumn
      cases haffinity
      have hform : ∀ x : String, (⟨name, .text, value⟩ : Cell).form (.text x) = .text x := by
        intro x
        cases value <;> rfl
      simp only [Cell.equals, PartitionKey.value, hform] at h h'
      cases (Value.eq_text_of_equals h).symm.trans (Value.eq_text_of_equals h')
      rfl

namespace Schema

variable {s s' : Schema} {t t' : Table}

theorem Akin.partition_eq (ha : s.Akin s') (hs : s.Sound) (hd : s.Declares t) {r : Row}
    (h : s.inScope t r = true) (h' : s'.inScope t r = true) : s'.partition = s.partition := by
  have hcolumns := ha.partition
  cases hp : s.partition with
  | none =>
    rw [hp] at hcolumns
    exact Option.map_eq_none_iff.1 hcolumns
  | some p =>
    rw [hp, Option.map_some] at hcolumns
    obtain ⟨p', hp', hcolumn⟩ := Option.map_eq_some_iff.1 hcolumns
    have hname : p'.column = p.column := by
      rw [← name_partitionColumn, ← name_partitionColumn, hcolumn]
    have hcell := Table.cell_of_column? (hs.isId_column hd (partitionColumn_mem hp))
      (hs.column? hd (partitionColumn_mem hp)) r
    rw [name_partitionColumn] at hcell
    simp only [inScope, hp, hp', Option.all_some, hname] at h h'
    rw [hp', Cell.eq_of_equals_partition hcolumn (by rw [hcell]) h h']

theorem Akin.reads_iff (ha : s.Akin s') (hp : s'.partition = s.partition) {nodes : List Node} :
    s'.Reads t nodes ↔ s.Reads t nodes := by
  have hscope : s'.scope t = s.scope t := by
    unfold scope
    congr 1
    funext r
    simp only [inScope, hp]
  have hshown : s'.shown t = s.shown t := by
    funext r
    simp only [shown, record, ha.id, ha.left, ha.right, ha.parent, ha.fields]
  rw [Reads, Reads, hscope, hshown]

theorem filter_apart (hapart : ∀ r, s.inScope t r = true → s'.inScope t r = false)
    (rows : List Row) :
    (rows.filter fun r => !s.inScope t r).filter (s'.inScope t) = rows.filter (s'.inScope t) := by
  rw [List.filter_filter]
  apply List.filter_congr
  intro r _
  cases hin : s.inScope t r with
  | false => simp
  | true => simp [hapart r hin]

theorem scope_of_spares (hapart : ∀ r, s.inScope t r = true → s'.inScope t r = false)
    (h : s.Spares t t') : s'.scope t' = s'.scope t := by
  have hin : s'.inScope t' = s'.inScope t := by
    funext r
    simp only [inScope, Table.cell_congr h.id h.columns]
  rw [scope, scope, hin, ← filter_apart hapart, h.rows, filter_apart hapart]

theorem Akin.apart (ha : s.Akin s') (hs : s.Sound) (hd : s.Declares t)
    (hp : s'.partition ≠ s.partition) :
    ∀ r, s.inScope t r = true → s'.inScope t r = false := by
  intro r hin
  rw [Bool.eq_false_iff]
  exact fun hin' => hp (ha.partition_eq hs hd hin hin')

/-- What a statement for one tree leaves of another. -/
theorem Akin.reads_of_beside (ha : s.Akin s') (hs : s.Sound) (hd : s.Declares t)
    (hp : s'.partition ≠ s.partition) (hb : s.Beside t t') {nodes : List Node}
    (h : s'.Reads t nodes) : s'.Reads t' nodes := by
  have hcell := Table.cell_congr hb.id hb.columns
  have hscope : (s'.scope t').Perm (s'.scope t) := by
    have hrows := hb.rows.filter (s'.inScope t)
    rw [filter_apart (ha.apart hs hd hp), filter_apart (ha.apart hs hd hp)] at hrows
    have hin : s'.inScope t' = s'.inScope t := by
      funext r
      simp only [inScope, hcell]
    rw [scope, scope, hin]
    exact hrows
  have hshown : s'.shown t' = s'.shown t := by
    funext r
    simp only [shown, record, hcell]
  rw [Reads, hshown]
  exact (hscope.map _).trans h

theorem Akin.installed (h : s.Akin s') {db : Database} (hi : s.Installed db) : s'.Installed db := by
  obtain ⟨t, ht, hd⟩ := hi
  refine ⟨t, ?_, h.declares hd⟩
  rw [h.table]
  exact ht

theorem Akin.filed (h : s.Akin s') {db : Database} (hf : s.Filed db t) : s'.Filed db t :=
  ⟨by rw [h.table]; exact hf.found, h.declares hf.declares, hf.ordered⟩

end Schema

/-! ### Orderly tables -/

/-- Every tree of the table is one tree or none, well numbered. -/
structure Orderly (s : Schema) (db : Database) (t : Table) : Prop where
  found : db.table? s.table = some t
  declares : s.Declares t
  ids : (t.rows.map (·.id)).Nodup
  trees : ∀ s', s.Akin s' → ∃ f : Forest Item, f.isTree = true ∧ s'.Reads t f.nodes

namespace Orderly

variable {s s' : Schema} {db : Database} {t : Table}

theorem stands (h : Orderly s db t) (ha : s.Akin s') :
    ∃ f, Stands s' db t f .unknown := by
  obtain ⟨f, hf, hreads⟩ := h.trees s' ha
  refine ⟨f, ⟨?_, ha.declares h.declares, h.ids, hreads, trivial⟩, hf⟩
  rw [ha.table]
  exact h.found

/-- An edit of one of the trees leaves all of them in order, unless a statement is refused. -/
theorem result (h : Orderly s db t) (ha : s.Akin s') (hs : s'.Sound) {e : Edit} {d d' : Desk}
    (hd : d.database = db) {answer : Except TreeError Answer}
    (hr : (e.procedure s').result s' d = (answer, d')) :
    (∃ step refusal, answer = .error (.backend step refusal)) ∨ ∃ t', Orderly s d'.database t' := by
  obtain ⟨f, hst⟩ := h.stands ha
  rw [← hd] at hst
  obtain ⟨t', hb, hend⟩ := e.result_of_stands hs hst hr
  apply hend.imp_right
  rintro ⟨new, -, -, hst'⟩
  have hd := ha.declares h.declares
  refine ⟨t', ?_, ?_, hst'.keeps.ids, ?_⟩
  · rw [← ha.table]
    exact hst'.keeps.found
  · exact (ha.of_common (.refl s)).declares hst'.keeps.declares
  · intro s'' ha''
    have hakin := ha.of_common ha''
    by_cases hp : s''.partition = s'.partition
    · exact ⟨_, hst'.isTree, (hakin.reads_iff hp).2 hst'.keeps.reads⟩
    · obtain ⟨f'', hf'', hreads⟩ := h.trees s'' ha''
      exact ⟨f'', hf'', hakin.reads_of_beside hs hd hp hb hreads⟩

theorem read_check {g : Handle} {store : Store} (h : Orderly s (store.view g.connection) t)
    (ha : s.Akin g.schema) : g.read store Reading.check = .ok [] := by
  obtain ⟨f, hst⟩ := h.stands ha
  rw [Handle.read_of_records hst.keeps.records_eq]
  exact hst.keeps.reads.check_eq hst.isTree

end Orderly

end NestedSet
