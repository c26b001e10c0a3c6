import Mathlib
import NestedSet.Database

/-!
# What statements do to tables

Each kind of statement that is not refused, in one lemma: what it answers and
which table it leaves, and what that is to the other tables of a database.
-/

set_option autoImplicit false

namespace NestedSet

theorem exists_of_bind_ok {ε α β : Type} {x : Except ε α} {f : α → Except ε β} {b : β}
    (h : x >>= f = .ok b) : ∃ a, x = .ok a ∧ f a = .ok b := by
  cases x with
  | error e => cases h
  | ok a => exact ⟨a, rfl, h⟩

/-! ### The statements on one table -/

namespace Table

variable {t t' : Table} {faults : List Fault}

theorem eq_of_rows (h : t'.rows = t.rows)
    (hbeside : { t' with rows := [], fits := Nat.zero_le _ } =
      { t with rows := [], fits := Nat.zero_le _ }) : t' = t := by
  obtain ⟨name, definition, id, columns, counter, rows, fits⟩ := t
  cases h
  cases hbeside
  rfl

/-- What a revision that is not refused counts and leaves. Where ids are assigned, the rows are put
in order again. -/
theorem eq_of_update {u : Revision Row} {count : Nat} (h : t.update faults u = .ok (count, t')) :
    count = t.rows.countP u.selects ∧
      t' = if u.columns.any t.isId then (t.mapRows (t.revise u)).sortRows
        else t.mapRows (t.revise u) := by
  unfold update at h
  split at h
  · cases h
  · split at h
    · cases h
    · cases h
      exact ⟨rfl, rfl⟩

theorem update_ok {u : Revision Row} {count : Nat} (hu : ∀ c ∈ u.columns, t.isId c = false)
    (h : t.update faults u = .ok (count, t')) :
    count = t.rows.countP u.selects ∧ t' = t.mapRows (t.revise u) := by
  have hids : u.columns.any t.isId = false := by
    rw [List.any_eq_false]
    exact fun c hc => by simp [hu c hc]
  obtain ⟨hcount, rfl⟩ := eq_of_update h
  exact ⟨hcount, by simp only [hids, Bool.false_eq_true, if_false]⟩

theorem eq_of_update_zero {u : Revision Row}
    (hrows : (∀ c ∈ u.columns, t.isId c = false) ∨ t.rows.Pairwise fun a b => a.id < b.id)
    (h : t.update faults u = .ok (0, t')) : t' = t := by
  obtain ⟨hcount, rfl⟩ := eq_of_update h
  have hsame : t.mapRows (t.revise u) = t := by
    refine eq_of_rows ((List.map_congr_left ?_).trans (List.map_id _)) rfl
    intro r hr
    rw [revise, if_neg (List.countP_eq_zero.1 hcount.symm r hr)]
    rfl
  rw [hsame]
  split
  next hids =>
    have hordered : t.rows.Pairwise fun a b => decide (a.id ≤ b.id) = true := by
      rcases hrows with hu | hrows
      · obtain ⟨c, hc, hid⟩ := List.any_eq_true.1 hids
        simp [hu c hc] at hid
      · exact hrows.imp fun hab => decide_eq_true hab.le
    exact eq_of_rows (List.mergeSort_of_pairwise hordered) rfl
  next => rfl

theorem cell_revise_of_ne {u : Revision Row} {other : Identifier}
    (hu : ∀ column ∈ u.columns, other.key ≠ column.key ∧ t.isId column = false) (r : Row) :
    t.cell other (t.revise u r) = t.cell other r := by
  obtain ⟨selects, sets⟩ := u
  have hsets : ∀ old new : Row,
      t.cell other (sets.foldl (fun new x => t.assign x.1 (x.2 old) new) new) =
        t.cell other new := by
    intro old
    induction sets with
    | nil => exact fun new => rfl
    | cons x rest ih =>
      intro new
      rw [Revision.columns, List.map_cons, List.forall_mem_cons] at hu
      rw [List.foldl_cons, ih hu.2, cell_assign_of_ne hu.1.1 (.inl hu.1.2)]
  unfold revise
  split
  · exact hsets r r
  · rfl

theorem name_of_update {u : Revision Row} {count : Nat} (h : t.update faults u = .ok (count, t')) :
    t'.name = t.name := by
  obtain ⟨-, rfl⟩ := eq_of_update h
  split <;> rfl

theorem delete_ok {selects : Row → Bool} {count : Nat}
    (h : t.delete faults selects = .ok (count, t')) :
    count = t.rows.countP selects ∧ t' = t.filterRows fun r => !selects r := by
  unfold delete at h
  simp only at h
  split at h
  · split at h
    · rename_i hzero
      cases h
      refine ⟨hzero.symm, ?_⟩
      rw [List.countP_eq_zero] at hzero
      exact eq_of_rows (List.filter_eq_self.2 (by simpa using hzero)).symm rfl
    · cases h
  · cases h
    exact ⟨rfl, rfl⟩

theorem place_ok {r : Row} (h : t.place r = .ok t') :
    t.objection? t.names t.rows r = none ∧ ∃ hroom, t' = t.withRow r hroom := by
  unfold place at h
  split at h
  · cases h
  · split at h
    · exact ⟨‹_›, ‹_›, (Except.ok.inj h).symm⟩
    · cases h

theorem insert_ok {values : List (Identifier × Value)} {id : Int}
    (h : t.insert faults values = .ok (id, t')) :
    ∃ brought, t.broughtId values = .ok brought ∧ (∀ i, brought = some i → id = i) ∧
      (brought = none → t.freshId = .ok id) ∧
      t.objection? t.names t.rows (t.newRow id values) = none ∧
      ∃ hroom, t' = t.withRow (t.newRow id values) hroom := by
  unfold insert at h
  obtain ⟨brought, hbrought, h⟩ := exists_of_bind_ok h
  cases hf : (t.guards faults).find? (·.kind.isOnInsert) with
  | some f => simp [hf, bind, Except.bind, throw, throwThe, MonadExceptOf.throw] at h
  | none =>
    simp only [hf] at h
    obtain ⟨new, hnew, h⟩ := exists_of_bind_ok h
    obtain ⟨placed, hplaced, h⟩ := exists_of_bind_ok h
    obtain ⟨rfl, rfl⟩ := Prod.mk.inj (Except.ok.inj h)
    obtain ⟨hobjection, hroom⟩ := place_ok hplaced
    refine ⟨brought, hbrought, ?_, ?_, hobjection, hroom⟩
    · rintro i rfl
      exact (Except.ok.inj hnew).symm
    · rintro rfl
      exact hnew

theorem broughtId_append {values rest : List (Identifier × Value)}
    (h : ∀ x ∈ rest, t.isId x.1 = false) : t.broughtId (values ++ rest) = t.broughtId values := by
  have hnone {p : Identifier × Value → Bool} (hp : ∀ x, p x = t.isId x.1) :
      rest.reverse.find? p = none := by
    rw [List.find?_eq_none]
    intro x hx
    simp [hp, h x (List.mem_reverse.1 hx)]
  rw [broughtId, List.reverse_append, List.find?_append, hnone fun _ => rfl, Option.none_or,
    broughtId]

theorem freshId_error {refusal : Refusal} (h : t.freshId = .error refusal) :
    refusal = .outOfIds := by
  unfold freshId at h
  split at h
  · simp only at h
    split at h
    · cases h
    · exact (Except.error.inj h).symm
  · split at h
    · cases h
    · split at h
      · cases h
      · exact (Except.error.inj h).symm

theorem place_notUnique {r : Row} {table column : String}
    (h : t.place r = .error (.notUnique table column)) :
    t.objection? t.names t.rows r = some (.notUnique table column) := by
  unfold place at h
  split at h
  · rwa [← Except.error.inj h]
  · split at h <;> cases h

theorem insert_notUnique {values : List (Identifier × Value)} {table column : String}
    {brought : Option Int} (hb : t.broughtId values = .ok brought)
    (h : t.insert faults values = .error (.notUnique table column)) :
    ∃ id, (∀ i, brought = some i → id = i) ∧ (brought = none → t.freshId = .ok id) ∧
      t.objection? t.names t.rows (t.newRow id values) = some (.notUnique table column) := by
  unfold insert at h
  rw [hb] at h
  cases hf : (t.guards faults).find? (·.kind.isOnInsert) with
  | some f =>
    simp [hf, bind, Except.bind, throw, throwThe, MonadExceptOf.throw, Fault.refusal] at h
  | none =>
    simp only [hf] at h
    cases hid : t.idFor brought with
    | error refusal =>
      cases brought with
      | some id => cases hid
      | none =>
        obtain rfl := freshId_error hid
        simp [hid, bind, Except.bind] at h
    | ok id =>
      simp only [hid, bind, Except.bind] at h
      cases hplaced : t.place (t.newRow id values) with
      | ok t' => simp [hplaced, pure, Except.pure] at h
      | error refusal =>
        simp only [hplaced, Except.error.injEq] at h
        refine ⟨id, ?_, ?_, place_notUnique (h ▸ hplaced)⟩
        · rintro i rfl
          exact (Except.ok.inj hid).symm
        · rintro rfl
          exact hid

theorem perm_insertById (r : Row) (rows : List Row) : (insertById r rows).Perm (r :: rows) := by
  induction rows with
  | nil => exact .refl _
  | cons o rest ih =>
    unfold insertById
    split
    · exact .refl _
    · exact (ih.cons o).trans (.swap r o rest)

theorem find?_insertById {p : Row → Bool} {r : Row} {rows : List Row} (hr : p r = true)
    (hrows : ∀ o ∈ rows, p o = false) : (insertById r rows).find? p = some r := by
  induction rows with
  | nil => simp [insertById, hr]
  | cons o rest ih =>
    rw [List.forall_mem_cons] at hrows
    unfold insertById
    split
    · simp [hr]
    · rw [List.find?_cons_of_neg (by simp [hrows.1])]
      exact ih hrows.2

theorem fresh_of_objection? {rows : List Row} {r : Row}
    (h : t.objection? t.names rows r = none) : ∀ o ∈ rows, o.id ≠ r.id := by
  have hid : t.names.any t.isId = true := by simp [names, isId]
  unfold objection? at h
  simp only [hid, Bool.true_and] at h
  split at h
  · cases h
  · split at h
    · cases h
    · rename_i hany
      intro o ho he
      exact hany (List.any_eq_true.2 ⟨o, ho, by simpa using he⟩)

theorem apart_of_objection? {rows : List Row} {r : Row}
    (h : t.objection? t.names rows r = none) {c : Column} (hc : c ∈ t.columns)
    (hunique : c.unique = true) : ∀ o ∈ rows,
      (c.collation.image (o.get c.key)).equals (c.collation.image (r.get c.key)) = false := by
  have hgiven : (t.names.any fun name => name.key == c.key) = true := by
    have hcolumn : (t.columns.map (·.name)).any (fun name => name.key == c.key) = true :=
      List.any_eq_true.2 ⟨c.name, List.mem_map_of_mem hc, by simp [Column.key]⟩
    rw [names, List.any_cons, hcolumn, Bool.or_true]
  have hmem : c ∈ (t.columns.filter fun c => t.names.any (·.key == c.key)).reverse :=
    List.mem_reverse.2 (List.mem_filter.2 ⟨hc, hgiven⟩)
  unfold objection? at h
  simp only at h
  split at h
  · cases h
  · split at h
    · cases h
    · rw [Option.map_eq_none_iff, clash?, List.find?_eq_none] at h
      intro o ho
      have hnot := h c hmem
      rw [hunique, Bool.true_and, List.any_eq_true] at hnot
      rw [← Bool.not_eq_true]
      exact fun he => hnot ⟨o, ho, he⟩

theorem lt_freshId {id : Int} (h : t.freshId = .ok id) : ∀ r ∈ t.rows, r.id < id := by
  intro r hr
  have hmem : r.id ∈ t.rows.map (·.id) := List.mem_map_of_mem hr
  obtain ⟨m, hm⟩ : ∃ m, t.largestId? = some m := by
    cases hl : t.largestId? with
    | none => simp [List.max?_eq_none_iff.1 hl] at hmem
    | some m => exact ⟨m, rfl⟩
  have hle : r.id ≤ m := (List.max?_eq_some_iff.1 hm).2 _ hmem
  unfold freshId at h
  simp only [hm, Option.getD_some] at h
  split at h <;> split at h
  · obtain rfl := Except.ok.inj h
    omega
  · cases h
  · obtain rfl := Except.ok.inj h
    omega
  · cases h

theorem largestId?_le {n m : Int} (hle : ∀ r ∈ t.rows, r.id ≤ n) (h : t.largestId? = some m) :
    m ≤ n := by
  obtain ⟨r, hr, rfl⟩ := List.mem_map.1 (List.max?_mem h)
  exact hle r hr

theorem freshId_of_counter {n id : Int} (hn : t.counter = some n) (hzero : 0 ≤ n)
    (hle : ∀ r ∈ t.rows, r.id ≤ n) (h : t.freshId = .ok id) : id = n + 1 := by
  have hlargest : t.largestId?.getD 0 ≤ n := by
    cases hl : t.largestId? with
    | none => exact hzero
    | some m => exact largestId?_le hle hl
  unfold freshId at h
  simp only [hn, max_eq_left hlargest] at h
  split at h
  · exact (Except.ok.inj h).symm
  · cases h

theorem eq_of_columns (hid : t'.id = t.id) (hcolumns : t'.columns = t.columns) :
    t' = ⟨t'.name, t'.definition, t.id, t.columns, t'.counter, t'.rows, t'.fits⟩ := by
  rw [← hid, ← hcolumns]

theorem cell_congr (hid : t'.id = t.id) (hcolumns : t'.columns = t.columns) : t'.cell = t.cell := by
  rw [eq_of_columns hid hcolumns]
  rfl

end Table

/-! ### Statements on the tables of a database -/

namespace Database

variable {db db' : Database}

theorem onTable_ok {α : Type} {name : Identifier}
    {statement : Table → List Fault → Except Refusal (α × Table)} {a : α}
    (h : onTable name statement db = .ok (a, db')) :
    ∃ t t', db.table? name = some t ∧ statement t db.faults = .ok (a, t') ∧
      db' = db.setTable t' := by
  obtain ⟨t, ht, h⟩ := exists_of_bind_ok h
  obtain ⟨⟨b, t'⟩, hs, h⟩ := exists_of_bind_ok h
  cases h
  refine ⟨t, t', ?_, hs, rfl⟩
  unfold table at ht
  cases hfound : db.table? name with
  | none =>
    rw [hfound] at ht
    cases ht
  | some t₀ =>
    rw [hfound] at ht
    exact congrArg some (Except.ok.inj ht)

theorem key_of_table? {name : Identifier} {t : Table} (h : db.table? name = some t) :
    t.key = name.key := by
  simpa using List.find?_some h

theorem table?_setTable_self {name : Identifier} {t t' : Table} (h : db.table? name = some t)
    (hname : t'.name = t.name) : (db.setTable t').table? name = some t' := by
  have hkey : t'.key = name.key := by
    rw [Table.key, hname]
    exact key_of_table? h
  obtain ⟨tables, indexes, faults⟩ := db
  change (tables.map fun o => if o.key = t'.key then t' else o).find? (·.key == name.key) = some t'
  change tables.find? (·.key == name.key) = some t at h
  induction tables with
  | nil => cases h
  | cons o rest ih =>
    by_cases ho : o.key = name.key
    · simp [ho, hkey]
    · rw [List.find?_cons_of_neg (by simpa using ho)] at h
      rw [List.map_cons, if_neg (by rwa [hkey]), List.find?_cons_of_neg (by simpa using ho)]
      exact ih h

theorem table?_setTable_of_ne {name : Identifier} {t : Table} (h : t.key ≠ name.key) :
    (db.setTable t).table? name = db.table? name := by
  obtain ⟨tables, indexes, faults⟩ := db
  change (tables.map fun o => if o.key = t.key then t else o).find? (·.key == name.key) =
    tables.find? (·.key == name.key)
  induction tables with
  | nil => rfl
  | cons o rest ih =>
    by_cases ho : o.key = t.key
    · have hne : o.key ≠ name.key := by rwa [ho]
      rw [List.map_cons, if_pos ho, List.find?_cons_of_neg (by simpa using h),
        List.find?_cons_of_neg (by simpa using hne), ih]
    · rw [List.map_cons, if_neg ho, List.find?_cons, List.find?_cons, ih]

end Database

end NestedSet
