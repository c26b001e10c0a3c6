import Mathlib
import NestedSet.Proofs.Agreement
import NestedSet.Proofs.Refinement

/-!
# Moves and removals that nothing refuses

Where a tree stands and no fault is set, the lookups of a move are answered and
its revisions are accepted: they assign integers to columns that need not be
unique. Deleting is accepted anyway. So no statement of a move or a removal is
refused, nor of any of these made one after another.
-/

set_option autoImplicit false

namespace NestedSet

variable {s : Schema} {db db' : Database} {t : Table} {l : Ledger}

namespace Schema

theorem declared_of_structural (hs : s.Sound) (hd : s.Declares t) {c : Column}
    (hc : c ∈ t.columns) (h : ∃ column ∈ [s.left, s.right, s.parent], column.key = c.key) :
    c = ⟨s.left, .numeric, true, false, .null, .binary⟩ ∨
      c = ⟨s.right, .numeric, true, false, .null, .binary⟩ ∨
      c = ⟨s.parent, .numeric, false, false, .null, .binary⟩ := by
  rw [hd.columns] at hc
  have hsame : ∀ c' ∈ Table.columnsOf s, c'.key = c.key → c = c' := fun c' hc' hk =>
    List.inj_on_of_nodup_map hs.columnKeys_nodup hc hc' hk.symm
  obtain ⟨column, hcolumn, hkey⟩ := h
  simp only [List.mem_cons, List.not_mem_nil, or_false] at hcolumn
  rcases hcolumn with rfl | rfl | rfl
  · exact .inl (hsame _ s.left_mem hkey)
  · exact .inr (.inl (hsame _ s.right_mem hkey))
  · exact .inr (.inr (hsame _ s.parent_mem hkey))

end Schema

theorem Schema.emptyColumn?_of_outlines (hs : s.Sound) (hd : s.Declares t) {c : Change}
    (hc : c.isStructural = true) {r : Row} {n : Node} (h : (s.record t r).Outlines n) :
    Table.emptyColumn? (t.columns.filter fun column =>
      (c.onRows s t).columns.any (·.key == column.key)) r = none := by
  obtain ⟨hleft, hright⟩ := get_of_outlines hs hd h
  rw [Table.emptyColumn?, List.find?_eq_none]
  intro column hcolumn
  obtain ⟨hmem, hgiven⟩ := List.mem_filter.1 hcolumn
  obtain ⟨name, hname, hkey⟩ := List.any_eq_true.1 hgiven
  rcases declared_of_structural hs hd hmem
    ⟨name, Change.structural_onRows hc name hname, by simpa using hkey⟩ with rfl | rfl | rfl
  · simp [Column.key, hleft]
  · simp [Column.key, hright]
  · simp

/-- Where no fault is set, a change of markers or parents is accepted if it leaves every row that
it revises with both markers. -/
theorem Schema.exists_revise_of_outlines (hs : s.Sound) (hfound : db.table? s.table = some t)
    (hd : s.Declares t) (hfaults : db.faults = []) {c : Change} (hc : c.isStructural = true)
    (h : ∀ r ∈ s.scope t, (c.onRows s t).selects r = true →
      ∃ n, (s.record t (t.revised (c.onRows s t) r)).Outlines n) :
    ∃ (rows : Nat) (db' : Database), s.revise (c.revision s) db = .ok (rows, db') := by
  have hstructural := Change.structural_onRows (s := s) (t := t) hc
  have hids : ∀ column ∈ (c.onRows s t).columns, t.isId column = false := by
    intro column hcolumn
    exact not_isId_of_written hs hd
      (Change.written_onRows (Change.proper_of_isStructural hc) column hcolumn)
  have hknown : t.stranger? (c.onRows s t).columns = none := by
    rw [Table.stranger?, List.find?_eq_none]
    intro column hcolumn
    obtain ⟨declared, hdeclared, rfl, -⟩ := exists_written hs
      (Change.written_onRows (t := t) (Change.proper_of_isStructural hc) column hcolumn)
    simp [Table.hasColumn, hs.column? hd hdeclared]
  have haccepted : t.firstObjection? [] (c.onRows s t)
      (t.rows.filter fun r => !(c.onRows s t).selects r) (t.visited (c.onRows s t)) = none := by
    apply Table.firstObjection?_eq_none hids
    · intro column hcolumn
      obtain ⟨hmem, hgiven⟩ := List.mem_filter.1 hcolumn
      obtain ⟨name, hname, hkey⟩ := List.any_eq_true.1 hgiven
      rcases declared_of_structural hs hd hmem
        ⟨name, hstructural name hname, by simpa using hkey⟩ with rfl | rfl | rfl <;> rfl
    · intro r hr
      obtain ⟨hmem, hselects⟩ := Table.mem_visited.1 hr
      obtain ⟨n, hn⟩ :=
        h r (List.mem_filter.2 ⟨hmem, (Bool.and_eq_true_iff.1 hselects).1⟩) hselects
      exact emptyColumn?_of_outlines hs hd hc hn
  obtain ⟨⟨rows, t'⟩, hupdate⟩ : ∃ x, t.update [] (c.onRows s t) = .ok x := by
    unfold Table.update
    simp only [hknown, haccepted]
    exact ⟨_, rfl⟩
  refine ⟨rows, db.setTable t', ?_⟩
  simp [revise, Database.onTable, Database.table, hfound, hfaults, bind, Except.bind,
    pure, Except.pure, ← Change.onRows.eq_1, hupdate]

namespace Keeps

theorem exists_revise (hs : s.Sound) (hk : Keeps s db t l) (hfaults : db.faults = []) {c : Change}
    (hc : c.isStructural = true) (hreach : (Request.revise c).InReach s l) :
    ∃ (rows : Nat) (db' : Database), s.revise (c.revision s) db = .ok (rows, db') := by
  refine Schema.exists_revise_of_outlines hs hk.found hk.declares hfaults hc
    fun r hr hselects => ?_
  obtain ⟨n, hmem, hn⟩ := hk.reads.exists_shown hr
  rw [c.selects_onRows (List.mem_filter.1 hr).2 (Record.outlines_of_node hn)] at hselects
  exact ⟨_, Record.outlines_of_node (Change.node_revised hs hk.declares
    (Change.proper_of_isStructural hc) hn (hreach.revised hmem hselects))⟩

theorem exists_find (hk : Keeps s db t l) (id : Int) :
    ∃ found, s.element? id db = .ok found := by
  rw [Schema.element?_eq hk.found hk.declares, Schema.rows_of_table? hk.found]
  cases hfind : (s.scope t).find? fun r => decide (r.id = id) with
  | none => exact ⟨none, rfl⟩
  | some r =>
    obtain ⟨n, -, hn⟩ := hk.reads.exists_shown (List.mem_of_find?_eq_some hfind)
    refine ⟨some n, ?_⟩
    change some <$> s.shown t r = .ok (some n)
    rw [hn]
    rfl

theorem exists_delete (hk : Keeps s db t l) (hfaults : db.faults = []) (range : Bounds) :
    ∃ (rows : Nat) (db' : Database), s.deleteRange range db = .ok (rows, db') := by
  obtain ⟨⟨rows, t'⟩, hdelete⟩ : ∃ x, t.delete [] (s.deletes t range) = .ok x := ⟨_, rfl⟩
  refine ⟨rows, db.setTable t', ?_⟩
  unfold Schema.deletes at hdelete
  simp [Schema.deleteRange, Database.onTable, Database.table, hk.found, hfaults, bind,
    Except.bind, pure, Except.pure, hdelete]

end Keeps

/-- A request that looks a node up, changes markers or parents, or deletes rows. -/
def Request.bringsNothing : Request → Bool
  | .find _ => true
  | .delete _ => true
  | .revise c => c.isStructural
  | _ => false

theorem Request.faults_of_bringsNothing {q : Request} (hq : q.bringsNothing = true) {a : q.Reply}
    (h : q.statement s db = .ok (a, db')) : db'.faults = db.faults := by
  cases q with
  | find id =>
    obtain ⟨-, rfl⟩ := ask_ok h
    rfl
  | delete range =>
    obtain ⟨t, -, -, rfl⟩ := Schema.deleteRange_ok (show s.deleteRange range db = _ from h)
    rfl
  | revise c =>
    obtain ⟨t, t', -, -, rfl⟩ := Database.onTable_ok (show s.revise (c.revision s) db = _ from h)
    rfl
  | _ => cases hq

theorem Keeps.exists_statement (hs : s.Sound) (hk : Keeps s db t l) (hfaults : db.faults = [])
    {q : Request} (hq : q.bringsNothing = true) (hreach : q.InReach s l) :
    ∃ a db', q.statement s db = .ok (a, db') := by
  cases q with
  | find id =>
    obtain ⟨found, hfound⟩ := hk.exists_find id
    refine ⟨found, db, ?_⟩
    simp only [Request.statement, Request.ask, hfound]
    rfl
  | delete range => exact hk.exists_delete hfaults range
  | revise c => exact hk.exists_revise hs hfaults hq hreach
  | _ => cases hq

theorem Procedure.exists_ends_of_issues {α : Type} (hs : s.Sound) {p : Procedure α}
    (hp : p.Issues fun q => q.bringsNothing = true)
    {post : Except TreeError α → Ledger → Prop} (hy : p.Yields s l post) (hk : Keeps s db t l)
    (hfaults : db.faults = []) : ∃ answer db', p.Ends s db answer db' ∧ db'.faults = [] := by
  induction p generalizing db t l with
  | done answer => exact ⟨answer, db, ⟨rfl, rfl⟩, hfaults⟩
  | issue q next ih =>
    obtain ⟨a, db₁, hstatement⟩ := hk.exists_statement hs hfaults hp.1 hy.1.2
    obtain ⟨t', l', hmeaning, hk', -⟩ := hk.serve hs hy.1.1 hy.1.2 hstatement
    have hfaults' := (Request.faults_of_bringsNothing hp.1 hstatement).trans hfaults
    obtain ⟨answer, db', hends, hquiet⟩ := ih a (hp.2 a) (hy.2 a l' hmeaning) hk' hfaults'
    exact ⟨answer, db', ⟨a, db₁, hstatement, hends⟩, hquiet⟩
  | report event next ih => exact ih hp hy hk hfaults

def Edit.BringsNothing (s : Schema) (e : Edit) : Prop :=
  (e.procedure s).Issues fun q => q.bringsNothing = true

theorem Request.bringsNothing_of_not_payload {c : Change}
    (hc : ∀ id values, c ≠ .payload id values) : (revise c).bringsNothing = true := by
  cases c with
  | payload id values => exact absurd rfl (hc id values)
  | _ => rfl

theorem Edit.bringsNothing_move (s : Schema) (id : Int) (placement : Placement) :
    (move id placement).BringsNothing s :=
  Procedure.issues_map
    (Editing.issues_move (fun _ => rfl) fun _ => Request.bringsNothing_of_not_payload)

theorem Edit.bringsNothing_remove (s : Schema) (id : Int) : (remove id).BringsNothing s :=
  Procedure.issues_map (Editing.issues_remove (fun _ => rfl) (fun _ => rfl)
    fun _ => Request.bringsNothing_of_not_payload)

/-- Where a tree stands and no fault is set, no statement of such edits is refused. -/
theorem Handle.unhindered_of_bringsNothing {h : Handle} {f : Forest Item} {supply : Supply}
    (hs : h.schema.Sound) (hst : Stands h.schema db t f supply) (hfaults : db.faults = [])
    {edits : List Edit} (he : ∀ e ∈ edits, e.BringsNothing h.schema) :
    h.Unhindered ⟨db, none⟩ edits := by
  induction edits generalizing db t f supply with
  | nil => trivial
  | cons e rest ih =>
    rw [List.forall_mem_cons] at he
    obtain ⟨answer, db₁, hends, hquiet⟩ :=
      Procedure.exists_ends_of_issues hs he.1 (hst.yields e) hst.keeps hfaults
    obtain ⟨-, hstore, hcalls⟩ := Handle.edit_of_ends hends
    obtain ⟨new, t₁, supply₁, -, hst₁⟩ := Edit.stands_of_ends hs hst hends
    refine ⟨hcalls, ?_⟩
    rw [hstore]
    cases answer with
    | ok a => exact ih hst₁ hquiet he.2
    | error error => exact ih hst hfaults he.2

theorem Handle.unhindered_moves {h : Handle} {f : Forest Item} {supply : Supply}
    (hs : h.schema.Sound) (hst : Stands h.schema db t f supply) (hfaults : db.faults = [])
    (moves : List (Int × Placement)) :
    h.Unhindered ⟨db, none⟩ (moves.map fun m => .move m.1 m.2) :=
  unhindered_of_bringsNothing hs hst hfaults
    (List.forall_mem_map.2 fun m _ => Edit.bringsNothing_move _ m.1 m.2)

theorem Handle.edit_move_of_stands {h : Handle} {f : Forest Item} {supply : Supply}
    (hs : h.schema.Sound) (hst : Stands h.schema db t f supply) (hfaults : db.faults = [])
    (id : Int) (placement : Placement) :
    (h.edit ⟨db, none⟩ (.move id placement)).answer =
      (f.transplant id placement).map fun x => .placed x.1 := by
  obtain ⟨answer, db₁, hends, -⟩ := Procedure.exists_ends_of_issues hs
    (Edit.bringsNothing_move _ id placement) (hst.yields _) hst.keeps hfaults
  obtain ⟨new, -, -, hanswer, -⟩ := Edit.stands_of_ends hs hst hends
  rw [(Handle.edit_of_ends hends).1, hanswer, Edit.onForest]
  cases f.transplant id placement <;> rfl

end NestedSet
