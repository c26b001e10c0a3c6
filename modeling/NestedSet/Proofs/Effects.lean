import Mathlib
import NestedSet.Proofs.Counting
import NestedSet.Proofs.Hosting

/-!
# What statements do to the table of a tree

For rows that hold anything whatever, each statement of a tree in one lemma:
what it answers and the table that it leaves. The rows of other partitions
stay as they are, in their order.
-/

set_option autoImplicit false

namespace NestedSet

namespace Database

theorem map_key_setTable (db : Database) (t : Table) :
    (db.setTable t).tables.map Table.key = db.tables.map Table.key := by
  obtain ⟨tables, indexes, faults⟩ := db
  change (tables.map fun o => if o.key = t.key then t else o).map Table.key = tables.map Table.key
  rw [List.map_map]
  apply List.map_congr_left
  intro o _
  rw [Function.comp_apply]
  split
  · rename_i h
    exact h.symm
  · rfl

theorem table?_setTable_apart {db : Database} {name other : Identifier} {t t' : Table}
    (h : db.table? name = some t) (hname : t'.name = t.name) (hne : other.key ≠ name.key) :
    (db.setTable t').table? other = db.table? other := by
  apply table?_setTable_of_ne
  rw [Table.key, hname]
  exact fun he => hne (he.symm.trans (key_of_table? h))

theorem setTable_self {db : Database} {name : Identifier} {t : Table}
    (hkeys : (db.tables.map Table.key).Nodup) (h : db.table? name = some t) :
    db.setTable t = db := by
  obtain ⟨tables, indexes, faults⟩ := db
  have hmem : t ∈ tables := List.mem_of_find?_eq_some h
  have hsame : (tables.map fun o => if o.key = t.key then t else o) = tables := by
    refine (List.map_congr_left ?_).trans (List.map_id tables)
    intro o ho
    split
    · rename_i hkey
      exact List.inj_on_of_nodup_map hkeys hmem ho hkey.symm
    · rfl
  rw [setTable]
  exact congrArg (Database.mk · indexes faults) hsame

end Database

namespace Schema

variable {s : Schema} {db db' : Database} {t t' : Table}

def scope (s : Schema) (t : Table) : List Row := t.rows.filter (s.inScope t)

def shown (s : Schema) (t : Table) (r : Row) : Except Refusal Node := (s.record t r).node

theorem id_of_shown (hd : s.Declares t) {r : Row} {n : Node} (h : s.shown t r = .ok n) :
    n.id = r.id := by
  have hid := (Record.node_eq_ok_iff.1 h).1
  rw [record, Table.cell_of_isId (isId_id hd)] at hid
  exact (Value.integer.inj hid).symm

def rows (s : Schema) (db : Database) : List Row := ((db.table? s.table).map s.scope).getD []

theorem rows_of_table? (h : db.table? s.table = some t) : s.rows db = s.scope t := by
  rw [rows, h]
  rfl

theorem rows_setTable (h : db.table? s.table = some t) (hname : t'.name = t.name) :
    s.rows (db.setTable t') = s.scope t' :=
  rows_of_table? (Database.table?_setTable_self h hname)

def Installed (s : Schema) (db : Database) : Prop :=
  ∃ t, db.table? s.table = some t ∧ s.Declares t

theorem records_of_table? (h : db.table? s.table = some t) :
    s.records db = .ok (s.recordsOf t) := by
  simp [records, Database.table, h, bind, Except.bind, pure, Except.pure]

theorem element?_eq (h : db.table? s.table = some t) (hd : s.Declares t) (id : Int) :
    s.element? id db =
      match (s.rows db).find? fun r => decide (r.id = id) with
      | none => .ok none
      | some r => some <$> s.shown t r := by
  have hpick : (fun r => (s.record t r).id.equals (.integer id)) = fun r => decide (r.id = id) := by
    funext r
    refine Cell.equals_of_integer ?_ id
    rw [record, Table.cell_of_isId (isId_id hd)]
  rw [element?, records_of_table? h, rows_of_table? h, ← hpick]
  change Reading.first ((s.scope t).map (s.record t)) (·.id.equals (.integer id)) = _
  rw [Reading.first, List.find?_map]
  cases hfind : (s.scope t).find? fun r => (s.record t r).id.equals (.integer id) with
  | none => simp only [Function.comp_def, hfind, Option.map_none]
  | some r =>
    simp only [Function.comp_def, hfind, Option.map_some]
    rfl

/-! ### The statements that change the table -/

/-- A change that assigns no ids leaves every row where it is in the table. -/
theorem exists_of_revise {c : Change}
    (hids : ∀ t, db.table? s.table = some t →
      ∀ column ∈ (c.onRows s t).columns, t.isId column = false) {count : Nat}
    (h : s.revise (c.revision s) db = .ok (count, db')) :
    ∃ t, db.table? s.table = some t ∧ count = t.rows.countP (c.onRows s t).selects ∧
      db' = db.setTable (t.mapRows (t.revise (c.onRows s t))) := by
  obtain ⟨t, t', ht, hupdate, rfl⟩ := Database.onTable_ok h
  obtain ⟨hcount, rfl⟩ := Table.update_ok (u := c.onRows s t) (hids t ht) hupdate
  exact ⟨t, ht, hcount, rfl⟩

theorem revise_ok (hs : s.Sound) (hi : s.Installed db) {c : Change}
    (hc : (Request.revise c).Proper s) {count : Nat}
    (h : s.revise (c.revision s) db = .ok (count, db')) :
    ∃ t, db.table? s.table = some t ∧ s.Declares t ∧
      count = t.rows.countP (c.onRows s t).selects ∧
      db' = db.setTable (t.mapRows (t.revise (c.onRows s t))) := by
  obtain ⟨t₀, hfound, hd⟩ := hi
  have hids : ∀ t, db.table? s.table = some t →
      ∀ column ∈ (c.onRows s t).columns, t.isId column = false := by
    intro t ht column hcolumn
    obtain rfl : t₀ = t := Option.some.inj (hfound.symm.trans ht)
    exact not_isId_of_written hs hd (Change.written_onRows hc column hcolumn)
  obtain ⟨t, ht, hcount, rfl⟩ := exists_of_revise hids h
  obtain rfl : t₀ = t := Option.some.inj (hfound.symm.trans ht)
  exact ⟨t₀, ht, hd, hcount, rfl⟩

def deletes (s : Schema) (t : Table) (range : Bounds) (r : Row) : Bool :=
  s.inScope t r &&
    ((s.record t r).left.atLeast range.left && (s.record t r).left.atMost range.right)

theorem deleteRange_ok {range : Bounds} {count : Nat}
    (h : s.deleteRange range db = .ok (count, db')) :
    ∃ t, db.table? s.table = some t ∧ count = t.rows.countP (s.deletes t range) ∧
      db' = db.setTable (t.filterRows fun r => !s.deletes t range r) := by
  obtain ⟨t, t', ht, hdelete, rfl⟩ := Database.onTable_ok h
  obtain ⟨hcount, rfl⟩ := Table.delete_ok hdelete
  exact ⟨t, ht, hcount, rfl⟩

/-- The id column of a schema stands for the ids of a table, and none of its other columns does. -/
structure IdsApart (s : Schema) (t : Table) : Prop where
  id : t.isId s.id = true
  others : ∀ column ∈ s.columns.tail, t.isId column = false

theorem IdsApart.not_isId (h : s.IdsApart t) {c : Identifier} (hc : c ∈ s.written) :
    t.isId c = false := by
  refine h.others c ?_
  simp only [written, List.cons_append, List.nil_append, List.mem_cons] at hc
  simp only [columns, structuralColumns, List.cons_append, List.nil_append, List.tail_cons,
    List.mem_cons, List.mem_append]
  tauto

theorem idsApart (hs : s.Sound) (hd : s.Declares t) : s.IdsApart t := by
  refine ⟨isId_id hd, ?_⟩
  intro column hcolumn
  simp only [columns, structuralColumns, List.cons_append, List.nil_append, List.tail_cons,
    List.mem_cons, List.mem_append, Option.mem_toList, List.mem_map] at hcolumn
  rcases hcolumn with rfl | rfl | rfl | hp | ⟨f, hf, rfl⟩
  · exact not_isId_of_written hs hd (by simp [written])
  · exact not_isId_of_written hs hd (by simp [written])
  · exact not_isId_of_written hs hd (by simp [written])
  · obtain ⟨p, hpartition, rfl⟩ := Option.map_eq_some_iff.1 hp
    have hid := hs.isId_column hd (partitionColumn_mem hpartition)
    rwa [name_partitionColumn] at hid
  · exact not_isId_of_written hs hd (List.mem_append_right _ (List.mem_map_of_mem hf))

theorem broughtId_entry (ha : s.IdsApart t) {values : List (Field × Value)}
    (hv : ∀ x ∈ values, x.1 ∈ s.fields) (id : Option Int) (bounds : Bounds)
    (parent : Option Int) : t.broughtId (s.entry id bounds parent values) = .ok id := by
  have hother : ∀ x ∈ [(s.left, Value.integer bounds.left), (s.right, .integer bounds.right),
      (s.parent, (parent.map Value.integer).getD .null)] ++
      (s.partition.map fun p => (p.column, p.key.value)).toList ++
      values.map (fun x => (x.1.column, x.2)), t.isId x.1 = false := by
    intro x hx
    refine ha.others x.1 ?_
    simp only [List.mem_append, List.mem_cons, List.not_mem_nil, or_false, Option.mem_toList,
      List.mem_map] at hx
    rcases hx with ((rfl | rfl | rfl) | hx) | ⟨y, hy, rfl⟩
    · simp [columns, structuralColumns]
    · simp [columns, structuralColumns]
    · simp [columns, structuralColumns]
    · obtain ⟨p, hp, rfl⟩ := Option.map_eq_some_iff.1 hx
      simp [columns, structuralColumns, hp]
    · simp only [columns, structuralColumns, List.cons_append, List.tail_cons, List.mem_cons,
        List.mem_append, List.mem_map]
      exact .inr (.inr (.inr (.inr ⟨y.1, hv y hy, rfl⟩)))
  rw [entry, List.append_assoc, List.append_assoc, ← List.append_assoc _ _ (values.map _),
    Table.broughtId_append hother]
  cases id with
  | none => rfl
  | some id => simp [Table.broughtId, ha.id, Table.idOf?, Affinity.toNumber]

theorem insertNode_of_idsApart (hfound : db.table? s.table = some t) (ha : s.IdsApart t)
    {id : Option Int} {bounds : Bounds} {parent : Option Int} {values : List (Field × Value)}
    (hv : ∀ x ∈ values, x.1 ∈ s.fields) {new : Int}
    (h : s.insertNode id bounds parent values db = .ok (new, db')) :
    (∀ i, id = some i → new = i) ∧ (id = none → t.freshId = .ok new) ∧
      t.objection? t.names t.rows (t.newRow new (s.entry id bounds parent values)) = none ∧
      ∃ hroom, db' =
        db.setTable (t.withRow (t.newRow new (s.entry id bounds parent values)) hroom) := by
  obtain ⟨⟨row, db''⟩, hrow, h⟩ := exists_of_bind_ok h
  cases h
  obtain ⟨t₀, t', ht, hinsert, rfl⟩ := Database.onTable_ok hrow
  obtain rfl : t = t₀ := Option.some.inj (hfound.symm.trans ht)
  split at hinsert
  · cases hinsert
  obtain ⟨brought, hbrought, hgiven, hfresh, hobjection, hroom, rfl⟩ := Table.insert_ok hinsert
  obtain rfl : id = brought :=
    Except.ok.inj ((broughtId_entry ha hv id bounds parent).symm.trans hbrought)
  have hnew : id.getD row = row := by
    cases id with
    | none => rfl
    | some i => exact (hgiven i rfl).symm
  rw [hnew]
  exact ⟨hgiven, hfresh, hobjection, hroom, rfl⟩

theorem insertNode_ok (hs : s.Sound) (hi : s.Installed db) {id : Option Int} {bounds : Bounds}
    {parent : Option Int} {values : List (Field × Value)} (hv : ∀ x ∈ values, x.1 ∈ s.fields)
    {new : Int} (h : s.insertNode id bounds parent values db = .ok (new, db')) :
    ∃ t, db.table? s.table = some t ∧ s.Declares t ∧ (∀ i, id = some i → new = i) ∧
      (id = none → t.freshId = .ok new) ∧
      t.objection? t.names t.rows (t.newRow new (s.entry id bounds parent values)) = none ∧
      ∃ hroom, db' =
        db.setTable (t.withRow (t.newRow new (s.entry id bounds parent values)) hroom) := by
  obtain ⟨t, hfound, hd⟩ := hi
  exact ⟨t, hfound, hd, insertNode_of_idsApart hfound (idsApart hs hd) hv h⟩

theorem setCounter_ok (hs : s.Sound) {sequence : Identifier} (hids : s.ids = .sequence sequence)
    {value : Int} (h : s.setCounter sequence value db = .ok ((), db')) :
    db'.table? s.table = db.table? s.table ∧
      db'.tables.map Table.key = db.tables.map Table.key := by
  obtain ⟨q, q', hq, hset, rfl⟩ := Database.onTable_ok h
  have hapart := (hs.sequence sequence hids).symm
  exact ⟨Database.table?_setTable_apart hq (Sequence.name_of_set hset) hapart,
    Database.map_key_setTable db q'⟩

/-! ### What they leave alone -/

theorem frame_revise (hs : s.Sound) (hd : s.Declares t) {c : Change}
    (hc : (Request.revise c).Proper s) (r : Row) :
    (t.revise (c.onRows s t) r).id = r.id ∧
      s.inScope t (t.revise (c.onRows s t) r) = s.inScope t r := by
  unfold Table.revise
  split
  · exact frame_revised hs hd (Change.written_onRows hc) r
  · exact ⟨rfl, rfl⟩

theorem revise_of_not_inScope {c : Change} {r : Row} (h : s.inScope t r = false) :
    t.revise (c.onRows s t) r = r := by
  have hnot : (c.onRows s t).selects r = false := by
    simp [Change.onRows, Revision.through, h]
  rw [Table.revise, hnot]
  rfl

theorem scope_revise (hs : s.Sound) (hd : s.Declares t) {c : Change}
    (hc : (Request.revise c).Proper s) :
    s.scope (t.mapRows (t.revise (c.onRows s t))) =
      (s.scope t).map (t.revise (c.onRows s t)) := by
  change (t.rows.map (t.revise (c.onRows s t))).filter (s.inScope t) = _
  rw [List.filter_map, scope]
  refine congrArg _ (List.filter_congr ?_)
  intro r _
  exact (frame_revise hs hd hc r).2

/-- What a statement leaves of a table beside the rows in scope, in their order. -/
structure Spares (s : Schema) (t t' : Table) : Prop where
  name : t'.name = t.name
  id : t'.id = t.id
  columns : t'.columns = t.columns
  rows : (t'.rows.filter fun r => !s.inScope t r) = t.rows.filter fun r => !s.inScope t r

theorem Spares.refl (s : Schema) (t : Table) : s.Spares t t := ⟨rfl, rfl, rfl, rfl⟩

theorem Spares.declares (h : s.Spares t t') (hd : s.Declares t) : s.Declares t' :=
  ⟨h.id.trans hd.id, h.columns.trans hd.columns⟩

theorem spares_revise_of_inScope {c : Change}
    (h : ∀ r, s.inScope t (t.revise (c.onRows s t) r) = s.inScope t r) :
    s.Spares t (t.mapRows (t.revise (c.onRows s t))) := by
  refine ⟨rfl, rfl, rfl, ?_⟩
  change (t.rows.map (t.revise (c.onRows s t))).filter (fun r => !s.inScope t r) = _
  rw [List.filter_map, List.filter_congr (q := fun r => !s.inScope t r)]
  · refine (List.map_congr_left ?_).trans (List.map_id _)
    intro r hr
    exact revise_of_not_inScope (by simpa using (List.mem_filter.1 hr).2)
  · intro r _
    rw [Function.comp_apply, h r]

theorem spares_revise (hs : s.Sound) (hd : s.Declares t) {c : Change}
    (hc : (Request.revise c).Proper s) :
    s.Spares t (t.mapRows (t.revise (c.onRows s t))) :=
  spares_revise_of_inScope fun r => (frame_revise hs hd hc r).2

theorem spares_delete (s : Schema) (t : Table) (range : Bounds) :
    s.Spares t (t.filterRows fun r => !s.deletes t range r) := by
  refine ⟨rfl, rfl, rfl, ?_⟩
  change (t.rows.filter fun r => !s.deletes t range r).filter (fun r => !s.inScope t r) = _
  rw [List.filter_filter]
  apply List.filter_congr
  intro r _
  cases h : s.inScope t r <;> simp [deletes, h]

end Schema

theorem Table.filter_insertById_of_neg {p : Row → Bool} {r : Row} (h : p r = false)
    (rows : List Row) : (insertById r rows).filter p = rows.filter p := by
  induction rows with
  | nil => simp [insertById, h]
  | cons o rest ih =>
    unfold insertById
    split
    · rw [List.filter_cons_of_neg (by simp [h])]
    · rw [List.filter_cons, List.filter_cons, ih]

theorem Table.ordered_insertById {r : Row} {rows : List Row}
    (h : rows.Pairwise fun a b => a.id < b.id) (hfree : ∀ o ∈ rows, o.id ≠ r.id) :
    (insertById r rows).Pairwise fun a b => a.id < b.id := by
  induction rows with
  | nil => simp [insertById]
  | cons o rest ih =>
    obtain ⟨ho, hrest⟩ := List.pairwise_cons.1 h
    rw [List.forall_mem_cons] at hfree
    unfold insertById
    split
    · rename_i hlt
      refine List.pairwise_cons.2 ⟨?_, h⟩
      intro q hq
      rcases List.mem_cons.1 hq with rfl | hq
      · exact hlt
      · exact hlt.trans (ho q hq)
    · rename_i hlt
      refine List.pairwise_cons.2 ⟨?_, ih hrest hfree.2⟩
      intro q hq
      rcases List.mem_cons.1 ((perm_insertById r rest).mem_iff.1 hq) with rfl | hq
      · exact lt_of_le_of_ne (not_lt.1 hlt) hfree.1
      · exact ho q hq

namespace Schema

variable {s : Schema} {db db' : Database} {t t' : Table}

theorem spares_withRow_of_inScope {r : Row} (hroom : t.rows.length < Table.capacity)
    (h : s.inScope t r = true) : s.Spares t (t.withRow r hroom) := by
  refine ⟨rfl, rfl, rfl, Table.filter_insertById_of_neg ?_ t.rows⟩
  rw [h]
  rfl

theorem spares_withRow (hs : s.Sound) (hd : s.Declares t) (id : Option Int) (bounds : Bounds)
    (parent : Option Int) (values : List (Field × Value)) (new : Int)
    (hroom : t.rows.length < Table.capacity) :
    s.Spares t (t.withRow (t.newRow new (s.entry id bounds parent values)) hroom) :=
  spares_withRow_of_inScope hroom (inScope_newRow id bounds parent values hs hd new)

/-- A request that is answered leaves the tables apart and the rows of other partitions alone. -/
theorem spares_of_statement (hs : s.Sound) (hi : s.Installed db) {q : Request} (hq : q.Proper s)
    {a : q.Reply} (h : q.statement s db = .ok (a, db')) :
    db'.tables.map Table.key = db.tables.map Table.key ∧
      ∃ t t', db.table? s.table = some t ∧ s.Declares t ∧ db'.table? s.table = some t' ∧
        s.Spares t t' := by
  have hsame : db' = db → db'.tables.map Table.key = db.tables.map Table.key ∧
      ∃ t t', db.table? s.table = some t ∧ s.Declares t ∧ db'.table? s.table = some t' ∧
        s.Spares t t' := by
    rintro rfl
    obtain ⟨t, ht, hd⟩ := hi
    exact ⟨rfl, t, t, ht, hd, ht, .refl s t⟩
  have hset : ∀ t t', db.table? s.table = some t → s.Declares t → s.Spares t t' →
      db' = db.setTable t' → db'.tables.map Table.key = db.tables.map Table.key ∧
      ∃ t t', db.table? s.table = some t ∧ s.Declares t ∧ db'.table? s.table = some t' ∧
        s.Spares t t' := by
    rintro t t' ht hd hspares rfl
    exact ⟨Database.map_key_setTable db t', t, t', ht, hd,
      Database.table?_setTable_self ht hspares.name, hspares⟩
  cases q with
  | find id => exact hsame (Request.ask_ok h).2
  | count => exact hsame (Request.ask_ok h).2
  | counter sequence => exact hsame (Request.ask_ok h).2
  | largestId => exact hsame (Request.ask_ok h).2
  | setCounter sequence value =>
    obtain ⟨htable, hkeys⟩ := setCounter_ok hs hq h
    obtain ⟨t, ht, hd⟩ := hi
    exact ⟨hkeys, t, t, ht, hd, htable.trans ht, .refl s t⟩
  | insert id bounds parent values =>
    obtain ⟨t, ht, hd, -, -, -, hroom, hdb⟩ := insertNode_ok hs hi hq h
    exact hset t _ ht hd (spares_withRow hs hd id bounds parent values a hroom) hdb
  | delete range =>
    obtain ⟨t, ht, -, hdb⟩ := deleteRange_ok h
    obtain ⟨t₀, ht₀, hd⟩ := hi
    obtain rfl : t₀ = t := Option.some.inj (ht₀.symm.trans ht)
    exact hset t₀ _ ht hd (spares_delete s t₀ range) hdb
  | revise c =>
    obtain ⟨t, ht, hd, -, hdb⟩ := revise_ok hs hi hq h
    exact hset t _ ht hd (spares_revise hs hd hq) hdb

theorem installed_of_statement (hs : s.Sound) (hi : s.Installed db) {q : Request}
    (hq : q.Proper s) {a : q.Reply} (h : q.statement s db = .ok (a, db')) : s.Installed db' := by
  obtain ⟨-, t, t', -, hd, ht', hspares⟩ := spares_of_statement hs hi hq h
  exact ⟨t', ht', hspares.declares hd⟩

/-- The database has the table that the schema declares, with its rows by increasing id. -/
structure Filed (s : Schema) (db : Database) (t : Table) : Prop where
  found : db.table? s.table = some t
  declares : s.Declares t
  ordered : t.rows.Pairwise fun a b => a.id < b.id

theorem ordered_revise (hs : s.Sound) (hf : s.Filed db t) {c : Change}
    (hc : (Request.revise c).Proper s) :
    (t.rows.map (t.revise (c.onRows s t))).Pairwise fun a b => a.id < b.id := by
  rw [List.pairwise_map]
  refine hf.ordered.imp ?_
  intro a b hab
  rwa [(frame_revise hs hf.declares hc a).1, (frame_revise hs hf.declares hc b).1]

/-- A request that is answered leaves the rows of the table by increasing id. -/
theorem filed_of_statement (hs : s.Sound) (hf : s.Filed db t) {q : Request} (hq : q.Proper s)
    {a : q.Reply} (h : q.statement s db = .ok (a, db')) : ∃ t', s.Filed db' t' := by
  have hi : s.Installed db := ⟨t, hf.found, hf.declares⟩
  have hsame : db' = db → ∃ t', s.Filed db' t' := by
    rintro rfl
    exact ⟨t, hf⟩
  have hset : ∀ t', s.Spares t t' → (t'.rows.Pairwise fun a b => a.id < b.id) →
      db' = db.setTable t' → ∃ t', s.Filed db' t' := by
    rintro t' hspares hordered rfl
    exact ⟨t', Database.table?_setTable_self hf.found hspares.name,
      hspares.declares hf.declares, hordered⟩
  cases q with
  | find id => exact hsame (Request.ask_ok h).2
  | count => exact hsame (Request.ask_ok h).2
  | counter sequence => exact hsame (Request.ask_ok h).2
  | largestId => exact hsame (Request.ask_ok h).2
  | setCounter sequence value =>
    exact ⟨t, (setCounter_ok hs hq h).1.trans hf.found, hf.declares, hf.ordered⟩
  | insert id bounds parent values =>
    obtain ⟨t₀, ht, hd, -, -, hobjection, hroom, hdb⟩ := insertNode_ok hs hi hq h
    obtain rfl : t = t₀ := Option.some.inj (hf.found.symm.trans ht)
    exact hset _ (spares_withRow hs hd id bounds parent values a hroom)
      (Table.ordered_insertById hf.ordered (Table.fresh_of_objection? hobjection)) hdb
  | delete range =>
    obtain ⟨t₀, ht, -, hdb⟩ := deleteRange_ok h
    obtain rfl : t = t₀ := Option.some.inj (hf.found.symm.trans ht)
    exact hset _ (spares_delete s t range) (hf.ordered.filter _) hdb
  | revise c =>
    obtain ⟨t₀, ht, hd, -, hdb⟩ := revise_ok hs hi hq h
    obtain rfl : t = t₀ := Option.some.inj (hf.found.symm.trans ht)
    exact hset _ (spares_revise hs hd hq) (ordered_revise hs hf hq) hdb

theorem Filed.nodup_ids (hf : s.Filed db t) : ((s.recordsOf t).map (·.id.value)).Nodup := by
  have hids : (s.recordsOf t).map (·.id.value) = (s.scope t).map fun r => Value.integer r.id := by
    rw [recordsOf, List.map_map]
    refine List.map_congr_left ?_
    intro r _
    exact congrArg Cell.value (Table.cell_of_isId (isId_id hf.declares) r)
  rw [hids, List.Nodup, List.pairwise_map]
  refine (hf.ordered.filter _).imp ?_
  intro a b hlt he
  exact hlt.ne (Value.integer.inj he)

end Schema

end NestedSet
