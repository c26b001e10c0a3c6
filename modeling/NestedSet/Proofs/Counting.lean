import Mathlib
import NestedSet.Proofs.Statements
import NestedSet.Sequence

/-!
# The counters of a sequence

A counter that has been set is found with its value, whether it was there
before or not.
-/

set_option autoImplicit false

namespace NestedSet.Sequence

structure Declared (q : Table) : Prop where
  id : q.id = ⟨"rowid"⟩
  columns : q.columns = [⟨nameColumn, .text, false, true, .null, .binary⟩,
    ⟨valueColumn, .numeric, true, false, .null, .binary⟩]

theorem declared_ofSequence (name : Identifier) : Declared (.ofSequence name) := ⟨rfl, rfl⟩

variable {q q' : Table}

theorem key_nameColumn : nameColumn.key = "name" := by decide +kernel

theorem key_valueColumn : valueColumn.key = "value" := by decide +kernel

theorem Declared.column?_name (hq : Declared q) :
    q.column? nameColumn.key = some ⟨nameColumn, .text, false, true, .null, .binary⟩ := by
  simp [Table.column?, hq.columns, Column.key]

theorem Declared.column?_value (hq : Declared q) :
    q.column? valueColumn.key = some ⟨valueColumn, .numeric, true, false, .null, .binary⟩ := by
  simp [Table.column?, hq.columns, Column.key, key_nameColumn, key_valueColumn]

theorem Declared.isId_name (hq : Declared q) : q.isId nameColumn = false := by
  have hkey : (nameColumn.key == q.id.key) = false := by
    rw [hq.id]
    decide +kernel
  rw [Table.isId, hkey, hq.column?_name]
  simp

theorem Declared.isId_value (hq : Declared q) : q.isId valueColumn = false := by
  have hkey : (valueColumn.key == q.id.key) = false := by
    rw [hq.id]
    decide +kernel
  rw [Table.isId, hkey, hq.column?_value]
  simp

theorem isCounter_eq (hq : Declared q) (name : String) (r : Row) :
    isCounter q name r = (r.get nameColumn.key).equals (.text name) := by
  rw [isCounter, Table.cell_of_column? hq.isId_name hq.column?_name, Cell.equals]
  cases r.get nameColumn.key <;> rfl

theorem Declared.stranger?_eq (hq : Declared q) :
    q.stranger? [valueColumn, nameColumn] = none := by
  simp [Table.stranger?, Table.hasColumn, hq.column?_name, hq.column?_value]

theorem value?_of_empty (hq : Declared q) (h : q.rows = []) (name : String) :
    value? q name = .ok none := by
  unfold value?
  simp only [hq.stranger?_eq, h]
  rfl

theorem value?_of_find? (hq : Declared q) {name : String} {r : Row} {value : Int}
    (h : q.rows.find? (fun r => (r.get nameColumn.key).equals (.text name)) = some r)
    (hr : r.get valueColumn.key = .integer value) : value? q name = .ok (some value) := by
  have hcounters : isCounter q name = fun r => (r.get nameColumn.key).equals (.text name) :=
    funext (isCounter_eq hq name)
  have hcell : (q.cell valueColumn r).integer 0 = .ok value := by
    rw [Cell.integer_eq_ok_iff, Table.cell_of_column? hq.isId_value hq.column?_value]
    exact hr
  unfold value?
  simp only [hq.stranger?_eq, hcounters, h, hcell]
  rfl

theorem get_newRow (hq : Declared q) (id : Int) (name : String) (value : Int) :
    (q.newRow id [(nameColumn, .text name), (valueColumn, .integer value)]).get nameColumn.key =
        .text name ∧
      (q.newRow id [(nameColumn, .text name), (valueColumn, .integer value)]).get valueColumn.key =
        .integer value := by
  simp [Table.newRow, Row.get, hq.columns, Column.key, key_nameColumn, key_valueColumn,
    Column.hold, Affinity.convert_text_text, Affinity.convert_numeric_integer, List.lookup_cons]

theorem broughtId_counter (hq : Declared q) (name : String) (value : Int) :
    q.broughtId [(nameColumn, .text name), (valueColumn, .integer value)] = .ok none := by
  have h : q.broughtId ([] ++ [(nameColumn, .text name), (valueColumn, .integer value)]) =
      q.broughtId [] := Table.broughtId_append (by simp [hq.isId_name, hq.isId_value])
  exact h

theorem exists_counter (hq : Declared q) {faults : List Fault} {name table column : String}
    {value : Int}
    (h : q.insert faults [(nameColumn, .text name), (valueColumn, .integer value)] =
      .error (.notUnique table column)) : ∃ r ∈ q.rows, isCounter q name r = true := by
  obtain ⟨id, -, hfresh, hobjection⟩ := Table.insert_notUnique (broughtId_counter hq name value) h
  unfold Table.objection? at hobjection
  simp only at hobjection
  split at hobjection
  · simp at hobjection
  · split at hobjection
    · rename_i hany
      rw [Bool.and_eq_true, List.any_eq_true (l := q.rows)] at hany
      obtain ⟨o, ho, he⟩ := hany.2
      have hlt := Table.lt_freshId (hfresh rfl) o ho
      simp [Table.newRow] at he
      omega
    · obtain ⟨c, hclash, -⟩ := Option.map_eq_some_iff.1 hobjection
      have hfound := List.find?_some hclash
      have hmem := List.mem_reverse.1 (List.mem_of_find?_eq_some hclash)
      rw [Bool.and_eq_true, List.any_eq_true] at hfound
      obtain ⟨hunique, o, ho, he⟩ := hfound
      have hc := (List.mem_filter.1 hmem).1
      rw [hq.columns] at hc
      simp only [List.mem_cons, List.not_mem_nil, or_false] at hc
      rcases hc with rfl | rfl
      · refine ⟨o, ho, ?_⟩
        rw [isCounter_eq hq]
        rw [Column.key, (get_newRow hq id name value).1] at he
        exact he
      · cases hunique

def setting (q : Table) (name : String) (value : Int) : Revision Row :=
  ⟨isCounter q name, [(valueColumn, fun _ => .integer value)]⟩

theorem get_revise (hq : Declared q) (name : String) (value : Int) (r : Row) :
    (q.revise (setting q name value) r).get nameColumn.key = r.get nameColumn.key ∧
      (isCounter q name r = true →
        (q.revise (setting q name value) r).get valueColumn.key = .integer value) := by
  have hne : nameColumn.key ≠ valueColumn.key := by decide +kernel
  have hrevised : q.revised (setting q name value) r = r.put valueColumn.key (.integer value) := by
    simp [Table.revised, setting, Table.assign, hq.isId_value, Table.hold, hq.column?_value,
      Column.hold, Affinity.convert_numeric_integer]
  unfold Table.revise
  rw [hrevised]
  split
  · exact ⟨Row.get_put_of_ne hne _ _, fun _ => Row.get_put_self _ _ _⟩
  · rename_i hnot
    exact ⟨rfl, fun hcounter => absurd hcounter hnot⟩

/-- A counter is set by a new row, or by a revision where a row is refused for its name. -/
theorem set_cases {faults : List Fault} {name : String} {value : Int}
    (h : set q faults name value = .ok ((), q')) :
    (∃ id, q.insert faults [(nameColumn, .text name), (valueColumn, .integer value)] =
      .ok (id, q')) ∨
    ∃ table column count,
      q.insert faults [(nameColumn, .text name), (valueColumn, .integer value)] =
        .error (.notUnique table column) ∧
      q.update faults (setting q name value) = .ok (count, q') := by
  unfold set at h
  split at h
  · split at h
    · rename_i id q₁ hinsert
      cases h
      exact .inl ⟨id, hinsert⟩
    · rename_i table column hinsert
      obtain ⟨⟨count, q₁⟩, hupdate, hdone⟩ := exists_of_bind_ok h
      cases hdone
      exact .inr ⟨table, column, count, hinsert, hupdate⟩
    · cases h
  · cases h

theorem name_of_set {faults : List Fault} {name : String} {value : Int}
    (h : set q faults name value = .ok ((), q')) : q'.name = q.name := by
  obtain ⟨id, hinsert⟩ | ⟨table, column, count, -, hupdate⟩ := set_cases h
  · obtain ⟨-, -, -, -, -, hroom, rfl⟩ := Table.insert_ok hinsert
    rfl
  · exact Table.name_of_update hupdate

theorem eq_of_update_setting (hq : Declared q) {faults : List Fault} {name : String}
    {value : Int} {count : Nat} (h : q.update faults (setting q name value) = .ok (count, q')) :
    q' = q.mapRows (q.revise (setting q name value)) :=
  (Table.update_ok (by simp [Revision.columns, setting, hq.isId_value]) h).2

theorem value?_set (hq : Declared q) {faults : List Fault} {name : String} {value : Int}
    (h : set q faults name value = .ok ((), q')) :
    Declared q' ∧ value? q' name = .ok (some value) := by
  obtain ⟨id, hinsert⟩ | ⟨table, column, count, hinsert, hupdate⟩ := set_cases h
  · obtain ⟨-, -, -, -, hobjection, hroom, rfl⟩ := Table.insert_ok hinsert
    obtain ⟨hname, hvalue⟩ := get_newRow hq id name value
    have hq' : Declared (q.withRow (q.newRow id [(nameColumn, .text name),
        (valueColumn, .integer value)]) hroom) := ⟨hq.id, hq.columns⟩
    refine ⟨hq', value?_of_find? hq' (Table.find?_insertById ?_ ?_) hvalue⟩
    · simp [hname, Value.equals, Value.same, Value.le]
    · rw [← hname]
      exact Table.apart_of_objection? hobjection
        (c := ⟨nameColumn, .text, false, true, .null, .binary⟩) (by simp [hq.columns]) rfl
  · obtain rfl := eq_of_update_setting hq hupdate
    have hq' : Declared (q.mapRows (q.revise (setting q name value))) := ⟨hq.id, hq.columns⟩
    obtain ⟨r, hr, hcounter⟩ := exists_counter hq hinsert
    obtain ⟨r₀, hfind⟩ := Option.isSome_iff_exists.1 (List.find?_isSome.2 ⟨r, hr, hcounter⟩)
    have hcounters : (fun r => (r.get nameColumn.key).equals (.text name)) ∘
        q.revise (setting q name value) = isCounter q name := by
      funext r
      rw [Function.comp_apply, (get_revise hq name value r).1, isCounter_eq hq]
    refine ⟨hq', value?_of_find? hq' (r := q.revise (setting q name value) r₀) ?_ ?_⟩
    · rw [Table.rows_mapRows, List.find?_map, hcounters, hfind]
      rfl
    · exact (get_revise hq name value r₀).2 (List.find?_some hfind)

end NestedSet.Sequence
