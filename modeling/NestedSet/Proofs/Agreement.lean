import Mathlib
import NestedSet.Proofs.Mirroring

/-!
# Databases that agree on one tree

Two databases agree on the tree of a schema if they hold the same rows of its
partition; other partitions, sequences and faults may differ. A statement for
the tree that both answer is answered alike, and they agree afterwards.
Where no fault is about and no column must be unique, the second answers every
statement that the first answers.
-/

set_option autoImplicit false

namespace NestedSet

/-! ### Statements that a table accepts because another one does -/

namespace Table

variable {t t' : Table} {faults : List Fault}

theorem emptyColumn?_of_objection? {given : List Identifier} {others : List Row} {r : Row}
    (h : t.objection? given others r = none) :
    emptyColumn? (t.columns.filter fun c => given.any (·.key == c.key)) r = none := by
  unfold objection? at h
  simp only at h
  split at h
  · cases h
  · rename_i hempty
    exact hempty

theorem objection?_eq_none {given : List Identifier} {others : List Row} {r : Row}
    (hempty : emptyColumn? (t.columns.filter fun c => given.any (·.key == c.key)) r = none)
    (hids : given.any t.isId = true → ∀ o ∈ others, o.id ≠ r.id)
    (hunique : ∀ c ∈ t.columns.filter fun c => given.any (·.key == c.key), c.unique = false) :
    t.objection? given others r = none := by
  have htaken : (given.any t.isId && others.any (·.id == r.id)) = false := by
    cases hgiven : given.any t.isId with
    | false => rfl
    | true =>
      rw [Bool.true_and, List.any_eq_false]
      intro o ho
      simpa using hids hgiven o ho
  have hclash : clash? (t.columns.filter fun c => given.any (·.key == c.key)) others r = none := by
    rw [clash?, List.find?_eq_none]
    intro c hc
    simp [hunique c (List.mem_reverse.1 hc)]
  unfold objection?
  simp only [hempty, htaken, hclash, Bool.false_eq_true, if_false, Option.map_none]

theorem emptyColumn?_of_firstObjection? {u : Revision Row} {settled rows : List Row}
    (h : t.firstObjection? faults u settled rows = none) : ∀ r ∈ rows,
      emptyColumn? (t.columns.filter fun c => u.columns.any (·.key == c.key)) (t.revised u r) =
        none := by
  induction rows generalizing settled with
  | nil => simp
  | cons r rest ih =>
    unfold firstObjection? at h
    split at h
    · cases h
    · rename_i hfirst
      rw [List.forall_mem_cons]
      refine ⟨?_, ih h⟩
      unfold revisionObjection? at hfirst
      simp only at hfirst
      split at hfirst
      · cases hfirst
      · split at hfirst
        · cases hfirst
        · exact emptyColumn?_of_objection? hfirst

theorem firstObjection?_eq_none {u : Revision Row} (hids : ∀ c ∈ u.columns, t.isId c = false)
    (hunique : ∀ c ∈ t.columns.filter fun c => u.columns.any (·.key == c.key), c.unique = false)
    {settled rows : List Row}
    (h : ∀ r ∈ rows, emptyColumn? (t.columns.filter fun c => u.columns.any (·.key == c.key))
      (t.revised u r) = none) : t.firstObjection? [] u settled rows = none := by
  have hnumbered : ∀ r, t.misnumbers u r = false := by
    intro r
    rw [misnumbers, List.any_eq_false]
    intro x hx
    have hcolumn : x.1 ∈ u.columns := List.mem_map_of_mem hx
    simp [hids x.1 hcolumn]
  have hgiven : u.columns.any t.isId = false := by
    rw [List.any_eq_false]
    exact fun c hc => by simp [hids c hc]
  induction rows generalizing settled with
  | nil => rfl
  | cons r rest ih =>
    rw [List.forall_mem_cons] at h
    have hobjection : t.revisionObjection? [] u (settled ++ rest) r = none := by
      have hrow : t.objection? u.columns (settled ++ rest) (t.revised u r) = none :=
        objection?_eq_none h.1 (by simp [hgiven]) hunique
      simp [revisionObjection?, hnumbered, guards, hrow]
    rw [firstObjection?, hobjection]
    exact ih h.2

theorem mem_visited {u : Revision Row} {r : Row} :
    r ∈ t.visited u ↔ r ∈ t.rows ∧ u.selects r = true := by
  unfold visited
  simp only
  split
  · exact List.mem_filter
  · rw [List.mem_mergeSort]
    exact List.mem_filter

theorem revise_congr (hid : t'.id = t.id) (hcolumns : t'.columns = t.columns) :
    t'.revise = t.revise := by
  rw [eq_of_columns hid hcolumns]
  rfl

theorem newRow_congr (hcolumns : t'.columns = t.columns) : t'.newRow = t.newRow := by
  cases t
  cases t'
  cases hcolumns
  rfl

theorem stranger?_congr (hid : t'.id = t.id) (hcolumns : t'.columns = t.columns) :
    t'.stranger? = t.stranger? := by
  rw [eq_of_columns hid hcolumns]
  rfl

/-- A revision that is accepted by one table is accepted by another one, free of faults and
without unique columns, if all the rows that it selects there are among those of the first. -/
theorem update_of_rows (hid : t'.id = t.id) (hcolumns : t'.columns = t.columns)
    {u : Revision Row} (hids : ∀ c ∈ u.columns, t'.isId c = false)
    (hunique : ∀ c ∈ t'.columns, c.unique = false)
    (hrows : ∀ r ∈ t'.rows, u.selects r = true → r ∈ t.rows) {x : Nat × Table}
    (h : t.update faults u = .ok x) : ∃ x', t'.update [] u = .ok x' := by
  have hrevised : t'.revised = t.revised := by
    rw [eq_of_columns hid hcolumns]
    rfl
  unfold update at h ⊢
  rw [stranger?_congr hid hcolumns]
  cases hs : t.stranger? u.columns with
  | some column =>
    rw [hs] at h
    cases h
  | none =>
    rw [hs] at h
    cases hf : t.firstObjection? faults u (t.rows.filter fun r => !u.selects r) (t.visited u) with
    | some refusal => simp [hf] at h
    | none =>
      have hempty := emptyColumn?_of_firstObjection? hf
      have hnone : t'.firstObjection? [] u (t'.rows.filter fun r => !u.selects r)
          (t'.visited u) = none := by
        apply firstObjection?_eq_none hids fun c hc => hunique c (List.mem_filter.1 hc).1
        intro r hr
        obtain ⟨hmem, hselects⟩ := mem_visited.1 hr
        rw [hcolumns, hrevised]
        exact hempty r (mem_visited.2 ⟨hrows r hmem hselects, hselects⟩)
      simp only [hnone]
      exact ⟨_, rfl⟩

/-- A row that is accepted by one table is accepted by another one, free of faults and without
unique columns, if there is room, it gets the same id there and the id is free. -/
theorem insert_of_fresh (hid : t'.id = t.id) (hcolumns : t'.columns = t.columns)
    (hunique : ∀ c ∈ t'.columns, c.unique = false) {values : List (Identifier × Value)}
    {new : Int} {t₁ : Table} (h : t.insert faults values = .ok (new, t₁))
    (hnext : t.broughtId values = .ok none → t'.freshId = .ok new)
    (hroom : t'.rows.length < capacity) (hfree : ∀ r ∈ t'.rows, r.id ≠ new) :
    ∃ x', t'.insert [] values = .ok x' := by
  obtain ⟨brought, hb, hgiven, -, hobjection, -⟩ := insert_ok h
  have hbrought : t'.broughtId values = .ok brought := by
    rw [← hb]
    rw [eq_of_columns hid hcolumns]
    rfl
  have hnames : t'.names = t.names := by rw [names, names, hid, hcolumns]
  have haccepted : t'.objection? t'.names t'.rows (t'.newRow new values) = none := by
    apply objection?_eq_none
    · rw [hnames, hcolumns, newRow_congr hcolumns]
      exact emptyColumn?_of_objection? hobjection
    · exact fun _ => hfree
    · exact fun c hc => hunique c (List.mem_filter.1 hc).1
  unfold insert
  cases brought with
  | some id =>
    obtain rfl := hgiven id rfl
    simp [hbrought, guards, idFor, place, haccepted, hroom, bind, Except.bind, pure, Except.pure]
  | none =>
    simp [hbrought, guards, idFor, place, hnext hb, haccepted, hroom, bind, Except.bind, pure,
      Except.pure]

end Table

theorem Table.filter_insertById_of_pos {p : Row → Bool} {r : Row} (hr : p r = true)
    {rows : List Row} (h : rows.Pairwise fun a b => a.id < b.id) :
    (insertById r rows).filter p = insertById r (rows.filter p) := by
  have hfirst : ∀ others : List Row, (∀ o ∈ others, r.id < o.id) →
      insertById r others = r :: others := by
    intro others hothers
    cases others with
    | nil => rfl
    | cons o rest => exact if_pos (hothers o List.mem_cons_self)
  induction rows with
  | nil => simp [insertById, hr]
  | cons o rest ih =>
    obtain ⟨ho, hrest⟩ := List.pairwise_cons.1 h
    have hcons : ∀ (o : Row) (others : List Row), insertById r (o :: others) =
        if r.id < o.id then r :: o :: others else o :: insertById r others := fun _ _ => rfl
    rw [hcons]
    by_cases hlt : r.id < o.id
    · rw [if_pos hlt, List.filter_cons_of_pos hr, hfirst]
      intro q hq
      rcases List.mem_cons.1 (List.mem_filter.1 hq).1 with rfl | hq
      · exact hlt
      · exact hlt.trans (ho q hq)
    · rw [if_neg hlt]
      by_cases hpo : p o = true
      · rw [List.filter_cons_of_pos hpo, List.filter_cons_of_pos hpo, ih hrest, hcons, if_neg hlt]
      · rw [List.filter_cons_of_neg hpo, List.filter_cons_of_neg hpo, ih hrest]

namespace Schema

variable {s : Schema} {calm : Prop} {db db' db₁ db₂ : Database} {t t' t₁ t₂ : Table}

theorem Declares.id_eq (h : s.Declares t) (h' : s.Declares t') : t'.id = t.id :=
  h'.id.trans h.id.symm

theorem Declares.columns_eq (h : s.Declares t) (h' : s.Declares t') : t'.columns = t.columns :=
  h'.columns.trans h.columns.symm

theorem inScope_congr (h : s.Declares t) (h' : s.Declares t') : s.inScope t' = s.inScope t := by
  funext r
  simp only [inScope, Table.cell_congr (h.id_eq h') (h.columns_eq h')]

theorem record_congr (h : s.Declares t) (h' : s.Declares t') : s.record t' = s.record t := by
  funext r
  simp only [record, Table.cell_congr (h.id_eq h') (h.columns_eq h')]

theorem records_congr (h₁ : s.Installed db₁) (h₂ : s.Installed db₂)
    (hrows : s.rows db₂ = s.rows db₁) : s.records db₂ = s.records db₁ := by
  obtain ⟨t₁, ht₁, hd₁⟩ := h₁
  obtain ⟨t₂, ht₂, hd₂⟩ := h₂
  rw [rows_of_table? ht₁, rows_of_table? ht₂] at hrows
  rw [records_of_table? ht₁, records_of_table? ht₂]
  change Except.ok ((s.scope t₂).map (s.record t₂)) = Except.ok ((s.scope t₁).map (s.record t₁))
  rw [hrows, record_congr hd₁ hd₂]

theorem collation_congr (h₁ : s.Installed db₁) (h₂ : s.Installed db₂) :
    s.collation db₂ = s.collation db₁ := by
  obtain ⟨t₁, ht₁, hd₁⟩ := h₁
  obtain ⟨t₂, ht₂, hd₂⟩ := h₂
  simp only [collation, ht₁, ht₂, Option.bind_some, Table.column?, hd₁.columns_eq hd₂]

/-- The databases hold the same rows of the schema's tree. In calm the second has no faults. -/
structure Agree (s : Schema) (calm : Prop) (db₁ db₂ : Database) : Prop where
  first : ∃ t, s.Filed db₁ t
  second : ∃ t, s.Filed db₂ t
  rows : s.rows db₂ = s.rows db₁
  quiet : calm → db₂.faults = []

namespace Agree

theorem installed (h : s.Agree calm db₁ db₂) : s.Installed db₁ ∧ s.Installed db₂ := by
  obtain ⟨t₁, h₁⟩ := h.first
  obtain ⟨t₂, h₂⟩ := h.second
  exact ⟨⟨t₁, h₁.found, h₁.declares⟩, ⟨t₂, h₂.found, h₂.declares⟩⟩

theorem records_eq (h : s.Agree calm db₁ db₂) : s.records db₂ = s.records db₁ :=
  records_congr h.installed.1 h.installed.2 h.rows

theorem scope_eq (h : s.Agree calm db₁ db₂) (h₁ : s.Filed db₁ t₁) (h₂ : s.Filed db₂ t₂) :
    s.scope t₂ = s.scope t₁ := by
  rw [← rows_of_table? h₁.found, ← rows_of_table? h₂.found]
  exact h.rows

theorem setTable (h : s.Agree calm db₁ db₂) (h₁ : s.Filed db₁ t₁) (h₂ : s.Filed db₂ t₂)
    {t₁' t₂' : Table} (hs₁ : s.Spares t₁ t₁') (hs₂ : s.Spares t₂ t₂')
    (ho₁ : t₁'.rows.Pairwise fun a b => a.id < b.id)
    (ho₂ : t₂'.rows.Pairwise fun a b => a.id < b.id) (hrows : s.scope t₂' = s.scope t₁') :
    s.Agree calm (db₁.setTable t₁') (db₂.setTable t₂') := by
  refine ⟨⟨t₁', ?_, hs₁.declares h₁.declares, ho₁⟩, ⟨t₂', ?_, hs₂.declares h₂.declares, ho₂⟩,
    ?_, h.quiet⟩
  · exact Database.table?_setTable_self h₁.found hs₁.name
  · exact Database.table?_setTable_self h₂.found hs₂.name
  · rw [rows_setTable h₁.found hs₁.name, rows_setTable h₂.found hs₂.name, hrows]

end Agree

/-! ### Statements that look at the tree alone -/

theorem mirrors_find (s : Schema) (calm : Prop) (id : Int) :
    (Request.find id).Mirrors s calm (s.Agree calm) fun _ => s.Agree calm := by
  intro db₁ db₂ a db₁' h hstatement _
  obtain ⟨hanswer, rfl⟩ := Request.ask_ok hstatement
  have hsame : s.element? id db₂ = .ok a := by
    rw [← hanswer, element?, element?, h.records_eq]
  exact ⟨db₂, Request.ask_of_ok hsame, h⟩

theorem mirrors_count (s : Schema) (calm : Prop) :
    Request.count.Mirrors s calm (s.Agree calm) fun _ => s.Agree calm := by
  intro db₁ db₂ a db₁' h hstatement _
  obtain ⟨hanswer, rfl⟩ := Request.ask_ok hstatement
  have hsame : s.size db₂ = .ok a := by
    rw [← hanswer, size, size, h.records_eq]
  exact ⟨db₂, Request.ask_of_ok hsame, h⟩

theorem countP_scope (p : Row → Bool) (t : Table) :
    t.rows.countP (fun r => s.inScope t r && p r) = (s.scope t).countP p := by
  rw [scope, List.countP_filter]
  refine congrArg (t.rows.countP ·) ?_
  funext r
  exact Bool.and_comm _ _

theorem onRows_congr (c : Change) (h : s.Declares t) (h' : s.Declares t') :
    c.onRows s t' = c.onRows s t := by
  rw [Change.onRows, Change.onRows, inScope_congr h h', record_congr h h']

theorem exists_revise (hs : s.Sound) (hunique : ∀ c ∈ Table.columnsOf s, c.unique = false)
    (h : s.Agree calm db₁ db₂) (hcalm : calm) {c : Change} (hc : (Request.revise c).Proper s)
    {count : Nat} {db₁' : Database} (hrevise : s.revise (c.revision s) db₁ = .ok (count, db₁')) :
    ∃ (n : Nat) (db₂' : Database), s.revise (c.revision s) db₂ = .ok (n, db₂') := by
  obtain ⟨t₁, h₁⟩ := h.first
  obtain ⟨t₂, h₂⟩ := h.second
  obtain ⟨t, t₁', ht, hupdate, -⟩ := Database.onTable_ok hrevise
  obtain rfl : t₁ = t := Option.some.inj (h₁.found.symm.trans ht)
  change t₁.update db₁.faults (c.onRows s t₁) = .ok (count, t₁') at hupdate
  have hids : ∀ column ∈ (c.onRows s t₁).columns, t₂.isId column = false :=
    fun column hcolumn =>
      not_isId_of_written hs h₂.declares (Change.written_onRows hc column hcolumn)
  have hplain : ∀ column ∈ t₂.columns, column.unique = false := by
    rw [h₂.declares.columns]
    exact hunique
  have hrows : ∀ r ∈ t₂.rows, (c.onRows s t₁).selects r = true → r ∈ t₁.rows := by
    intro r hr hselects
    have hin : s.inScope t₁ r = true := (Bool.and_eq_true_iff.1 hselects).1
    rw [← inScope_congr h₁.declares h₂.declares] at hin
    have hscope : r ∈ s.scope t₂ := List.mem_filter.2 ⟨hr, hin⟩
    rw [h.scope_eq h₁ h₂] at hscope
    exact (List.mem_filter.1 hscope).1
  obtain ⟨⟨n, t₂'⟩, hupdate'⟩ := Table.update_of_rows (h₁.declares.id_eq h₂.declares)
    (h₁.declares.columns_eq h₂.declares) hids hplain hrows hupdate
  rw [← onRows_congr c h₁.declares h₂.declares] at hupdate'
  refine ⟨n, db₂.setTable t₂', ?_⟩
  simp [revise, Database.onTable, Database.table, h₂.found, h.quiet hcalm, bind, Except.bind,
    pure, Except.pure, ← Change.onRows.eq_1, hupdate']

theorem mirrors_revise (hs : s.Sound) (hunique : calm → ∀ c ∈ Table.columnsOf s, c.unique = false)
    {c : Change} (hc : (Request.revise c).Proper s) :
    (Request.revise c).Mirrors s calm (s.Agree calm) fun _ => s.Agree calm := by
  intro db₁ db₂ (count : Nat) db₁' h hstatement hsecond
  obtain ⟨t₁, h₁⟩ := h.first
  obtain ⟨t₂, h₂⟩ := h.second
  have hanswered : ∃ (n : Nat) (db₂' : Database), s.revise (c.revision s) db₂ = .ok (n, db₂') := by
    rcases hsecond with hcalm | hanswered
    · exact exists_revise hs (hunique hcalm) h hcalm hc hstatement
    · exact hanswered
  obtain ⟨n, db₂', hstatement'⟩ := hanswered
  obtain ⟨t, ht, -, hcount, rfl⟩ := revise_ok hs h.installed.1 hc hstatement
  obtain rfl : t₁ = t := Option.some.inj (h₁.found.symm.trans ht)
  obtain ⟨t, ht, -, hcount', rfl⟩ := revise_ok hs h.installed.2 hc hstatement'
  obtain rfl : t₂ = t := Option.some.inj (h₂.found.symm.trans ht)
  have hsame : n = count := by
    have hselects : ∀ t, (c.onRows s t).selects = fun r =>
      s.inScope t r && (c.revision s).selects (s.record t r) := fun _ => rfl
    rw [hcount, hcount', hselects, hselects, countP_scope, countP_scope, h.scope_eq h₁ h₂,
      record_congr h₁.declares h₂.declares]
  subst hsame
  refine ⟨_, hstatement', h.setTable h₁ h₂ (spares_revise hs h₁.declares hc)
    (spares_revise hs h₂.declares hc) (ordered_revise hs h₁ hc) (ordered_revise hs h₂ hc) ?_⟩
  rw [scope_revise hs h₁.declares hc, scope_revise hs h₂.declares hc, h.scope_eq h₁ h₂,
    onRows_congr c h₁.declares h₂.declares,
    Table.revise_congr (h₁.declares.id_eq h₂.declares) (h₁.declares.columns_eq h₂.declares)]

theorem mirrors_delete (s : Schema) (calm : Prop) (range : Bounds) :
    (Request.delete range).Mirrors s calm (s.Agree calm) fun _ => s.Agree calm := by
  intro db₁ db₂ (count : Nat) db₁' h hstatement hsecond
  obtain ⟨t₁, h₁⟩ := h.first
  obtain ⟨t₂, h₂⟩ := h.second
  have hanswered : ∃ (n : Nat) (db₂' : Database), s.deleteRange range db₂ = .ok (n, db₂') := by
    rcases hsecond with hcalm | hanswered
    · simp [deleteRange, Database.onTable, Database.table, h₂.found, h.quiet hcalm, Table.delete,
        Table.guards, bind, Except.bind, pure, Except.pure]
    · exact hanswered
  obtain ⟨n, db₂', hstatement'⟩ := hanswered
  obtain ⟨t, ht, hcount, rfl⟩ := deleteRange_ok hstatement
  obtain rfl : t₁ = t := Option.some.inj (h₁.found.symm.trans ht)
  obtain ⟨t, ht, hcount', rfl⟩ := deleteRange_ok hstatement'
  obtain rfl : t₂ = t := Option.some.inj (h₂.found.symm.trans ht)
  have hdeletes : s.deletes t₂ range = s.deletes t₁ range := by
    funext r
    simp only [deletes, inScope_congr h₁.declares h₂.declares,
      record_congr h₁.declares h₂.declares]
  have hsame : n = count := by
    have hsplit : ∀ t, s.deletes t range = fun r => s.inScope t r &&
      ((s.record t r).left.atLeast range.left && (s.record t r).left.atMost range.right) :=
      fun _ => rfl
    rw [hcount, hcount', hsplit, hsplit, countP_scope, countP_scope, h.scope_eq h₁ h₂,
      record_congr h₁.declares h₂.declares]
  subst hsame
  have hscope : ∀ t, s.scope (t.filterRows fun r => !s.deletes t range r) =
      (s.scope t).filter fun r => !s.deletes t range r := by
    intro t
    change (t.rows.filter _).filter (s.inScope t) = (t.rows.filter (s.inScope t)).filter _
    rw [List.filter_filter, List.filter_filter]
    refine congrArg (t.rows.filter ·) ?_
    funext r
    exact Bool.and_comm _ _
  refine ⟨_, hstatement', h.setTable h₁ h₂ (spares_delete s t₁ range) (spares_delete s t₂ range)
    (h₁.ordered.filter _) (h₂.ordered.filter _) ?_⟩
  rw [hscope, hscope, hdeletes, h.scope_eq h₁ h₂]

end Schema

end NestedSet
