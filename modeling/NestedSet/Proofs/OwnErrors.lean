import Mathlib
import NestedSet.Proofs.Effects
import NestedSet.Proofs.Invariance

/-!
# Errors of an edit's own

An edit finds out whether it is possible before it writes anything. A move
looks its two nodes up again after it has made room for the subtree; they are
found then, for no row has come or gone since the first look.
-/

set_option autoImplicit false

namespace NestedSet

/-! ### Procedures without an error of their own -/

namespace Procedure

variable {α β : Type} {s : Schema} {db db' : Database}

/-- No error but a refusal can be the answer. -/
def Smooth : Procedure α → Prop
  | done answer => ∃ a, answer = .ok a
  | issue _ next => ∀ a, (next a).Smooth
  | report _ next => next.Smooth

theorem smooth_pure (a : α) : (pure a : Procedure α).Smooth := ⟨a, rfl⟩

theorem smooth_request (q : Request) : (request q).Smooth := fun a => ⟨a, rfl⟩

theorem smooth_tell (event : Event) : (tell event).Smooth := ⟨(), rfl⟩

theorem smooth_bind {p : Procedure α} {f : α → Procedure β} (hp : p.Smooth)
    (hf : ∀ a, (f a).Smooth) : (p >>= f).Smooth := by
  change (p.bind f).Smooth
  induction p with
  | done answer =>
    obtain ⟨a, rfl⟩ := hp
    exact hf a
  | issue q next ih => exact fun a => ih a (hp a)
  | report event next ih => exact ih hp

theorem not_ends_error {p : Procedure α} (hp : p.Smooth) {e : TreeError} :
    ¬p.Ends s db (.error e) db' := by
  induction p generalizing db with
  | done answer =>
    obtain ⟨a, rfl⟩ := hp
    rintro ⟨⟨⟩, -⟩
  | issue q next ih =>
    rintro ⟨a, db₁, -, h⟩
    exact ih a (hp a) h
  | report event next ih => exact ih hp

theorem ends_error_of_smooth {p : Procedure α} {f : α → Procedure β} (hf : ∀ a, (f a).Smooth)
    {e : TreeError} (h : (p >>= f).Ends s db (.error e) db') : p.Ends s db (.error e) db' := by
  obtain ⟨a, db₁, -, h⟩ | ⟨e', h, he⟩ := ends_bind.1 h
  · exact absurd h (not_ends_error (hf a))
  · cases he
    exact h

theorem ends_error_of_map {p : Procedure α} {f : α → β} {e : TreeError}
    (h : (f <$> p).Ends s db (.error e) db') : p.Ends s db (.error e) db' :=
  ends_error_of_smooth (fun a => smooth_pure (f a)) h

theorem database_of_ends {p : Procedure α} (hp : p.Issues fun q => q.isQuestion = true)
    {answer : Except TreeError α} (h : p.Ends s db answer db') : db' = db :=
  ends_preserves (I := (· = db)) hp
    (fun _ _ _ _ hq hdb hstatement => (Request.statement_of_isQuestion hq hstatement).trans hdb)
    rfl h

end Procedure

namespace Editing

open Procedure

theorem smooth_makeRoom (pivot width : Int) : (makeRoom pivot width).Smooth :=
  smooth_bind (smooth_request _) fun _ => smooth_bind (smooth_request _) fun _ => smooth_tell _

theorem smooth_collapse (gap : Bounds) : (collapse gap).Smooth :=
  smooth_bind (smooth_request _) fun _ => smooth_bind (smooth_request _) fun _ => smooth_tell _

theorem smooth_shift (subtree : Bounds) (offset : Int) : (shift subtree offset).Smooth :=
  smooth_bind (smooth_request _) fun _ => smooth_tell _

theorem smooth_makeLeafRoom (parent : Option Int) (pivot : Int) :
    (makeLeafRoom parent pivot).Smooth := by
  cases parent with
  | none => exact smooth_pure ()
  | some parent => exact smooth_makeRoom pivot 2

theorem smooth_drawId (ids : IdSource Identifier) : (drawId ids).Smooth := by
  cases ids with
  | autoIncrement => exact smooth_pure none
  | sequence sequence =>
    have hlast : (lastDrawn sequence).Smooth := by
      apply smooth_bind (smooth_request _)
      intro counter
      cases counter with
      | none => exact smooth_request _
      | some value => exact smooth_pure value
    exact smooth_bind hlast fun last => smooth_bind (smooth_request _) fun _ => smooth_pure _

end Editing

/-! ### Looking nodes up -/

namespace Schema

variable {s : Schema} {db db' : Database} {id : Int}

def Has (s : Schema) (db : Database) (id : Int) : Prop :=
  ∃ t, db.table? s.table = some t ∧
    ∃ r ∈ s.scope t, (s.record t r).id.equals (.integer id) = true

theorem element?_of_table? {t : Table} (h : db.table? s.table = some t) (id : Int) :
    s.element? id db =
      Reading.first ((s.scope t).map (s.record t)) (·.id.equals (.integer id)) := by
  rw [element?, records_of_table? h]
  rfl

theorem has_of_element? {n : Node} (h : s.element? id db = .ok (some n)) :
    n.id = id ∧ s.Has db id := by
  cases ht : db.table? s.table with
  | none => simp [element?, records, Database.table, ht, bind, Except.bind] at h
  | some t =>
    rw [element?_of_table? ht, Reading.first] at h
    split at h
    · cases h
    · rename_i record hfind
      have hid := List.find?_some hfind
      obtain ⟨r, hr, rfl⟩ := List.mem_map.1 (List.mem_of_find?_eq_some hfind)
      cases hn : (s.record t r).node with
      | error refusal => simp [hn] at h
      | ok m =>
        rw [hn] at h
        cases h
        rw [Cell.equals_of_integer (Record.node_eq_ok_iff.1 hn).1] at hid
        refine ⟨by simpa using hid, t, ht, r, hr, ?_⟩
        rw [Cell.equals_of_integer (Record.node_eq_ok_iff.1 hn).1]
        exact hid

theorem not_has_of_element? (h : s.element? id db = .ok none) : ¬s.Has db id := by
  rintro ⟨t, ht, r, hr, hid⟩
  rw [element?_of_table? ht, Reading.first] at h
  split at h
  · rename_i hfind
    exact List.find?_eq_none.1 hfind _ (List.mem_map_of_mem hr) hid
  · rename_i record hfind
    cases hn : record.node <;> simp [hn] at h

def rowIds (s : Schema) (db : Database) : List Int := (s.rows db).map (·.id)

theorem has_iff (hi : s.Installed db) : s.Has db id ↔ id ∈ s.rowIds db := by
  obtain ⟨t, ht, hd⟩ := hi
  have hid : ∀ r, (s.record t r).id.equals (.integer id) = decide (r.id = id) := fun r =>
    Cell.equals_of_integer (by rw [record, Table.cell_of_isId (isId_id hd)]) id
  rw [rowIds, rows_of_table? ht, List.mem_map]
  constructor
  · rintro ⟨t', ht', r, hr, h⟩
    obtain rfl : t = t' := Option.some.inj (ht.symm.trans ht')
    exact ⟨r, hr, by simpa [hid] using h⟩
  · rintro ⟨r, hr, h⟩
    exact ⟨t, ht, r, hr, by simpa [hid] using h⟩

/-- The columns of the schema are different ones, and its table keeps neither markers nor parents
where it keeps its ids. -/
structure Apart (s : Schema) (db : Database) : Prop where
  distinct : (s.columns.map Identifier.key).Nodup
  marks : ∀ t, db.table? s.table = some t →
    ∀ column ∈ [s.left, s.right, s.parent], t.isId column = false

theorem apart_of_installed (hs : s.Sound) (hi : s.Installed db) : s.Apart db := by
  obtain ⟨t₀, ht₀, hd⟩ := hi
  refine ⟨hs.keys_nodup, ?_⟩
  intro t ht column hcolumn
  obtain rfl : t₀ = t := Option.some.inj (ht₀.symm.trans ht)
  exact not_isId_of_written hs hd (List.mem_append_left _ hcolumn)

theorem not_isId_field (hs : s.Sound) (hi : s.Installed db) :
    ∀ t, db.table? s.table = some t → ∀ f ∈ s.fields, t.isId f.column = false := by
  obtain ⟨t₀, ht₀, hd⟩ := hi
  intro t ht f hf
  obtain rfl : t₀ = t := Option.some.inj (ht₀.symm.trans ht)
  exact not_isId_of_written hs hd (List.mem_append_right _ (List.mem_map_of_mem hf))

theorem Apart.key_ne (ha : s.Apart db) {other column : Identifier}
    (hother : other = s.id ∨ ∃ p, s.partition = some p ∧ other = p.column)
    (hcolumn : column ∈ [s.left, s.right, s.parent]) : other.key ≠ column.key := by
  have hnodup := ha.distinct
  rw [columns, List.append_assoc, List.map_append] at hnodup
  rcases hother with rfl | ⟨p, hp, rfl⟩
  · have hmarks := (List.nodup_cons.1 (List.nodup_append.1 hnodup).1).1
    exact fun he => hmarks (he ▸ List.mem_map_of_mem hcolumn)
  · refine ((List.nodup_append.1 hnodup).2.2 _ (List.mem_map_of_mem ?_) _
      (List.mem_map_of_mem ?_)).symm
    · exact List.mem_cons_of_mem _ hcolumn
    · simp [hp]

/-- While markers and parents change, no row comes or goes and each is found by its id. -/
theorem Apart.revise (ha : s.Apart db) {c : Change} (hc : c.isStructural = true) {count : Nat}
    (h : s.revise (c.revision s) db = .ok (count, db')) :
    s.Apart db' ∧ ∀ id, s.Has db id → s.Has db' id := by
  have hmarks : ∀ t, db.table? s.table = some t →
      ∀ column ∈ (c.onRows s t).columns, t.isId column = false := fun t ht column hcolumn =>
    ha.marks t ht column (Change.structural_onRows hc column hcolumn)
  obtain ⟨t, ht, -, rfl⟩ := exists_of_revise hmarks h
  have htable :
      (db.setTable (t.mapRows (t.revise (c.onRows s t)))).table? s.table =
        some (t.mapRows (t.revise (c.onRows s t))) :=
    Database.table?_setTable_self ht rfl
  constructor
  · refine ⟨ha.distinct, ?_⟩
    intro t' ht'
    obtain rfl := Option.some.inj (htable.symm.trans ht')
    exact ha.marks t ht
  · rintro id ⟨t', ht', r, hr, hid⟩
    obtain rfl : t = t' := Option.some.inj (ht.symm.trans ht')
    have hsame : ∀ other, (other = s.id ∨ ∃ p, s.partition = some p ∧ other = p.column) →
        t.cell other (t.revise (c.onRows s t) r) = t.cell other r := fun other hother =>
      Table.cell_revise_of_ne (fun column hcolumn =>
        ⟨ha.key_ne hother (Change.structural_onRows hc column hcolumn),
          hmarks t ht column hcolumn⟩) r
    have hscope : s.inScope t (t.revise (c.onRows s t) r) = s.inScope t r := by
      cases hp : s.partition with
      | none => simp [inScope, hp]
      | some p => simp [inScope, hp, hsame _ (.inr ⟨p, hp, rfl⟩)]
    obtain ⟨hmem, hin⟩ := List.mem_filter.1 hr
    refine ⟨_, htable, t.revise (c.onRows s t) r, ?_, ?_⟩
    · exact List.mem_filter.2 ⟨List.mem_map_of_mem hmem, hscope.trans hin⟩
    · exact (congrArg (Cell.equals · (.integer id)) (hsame _ (.inl rfl))).trans hid

theorem database_of_revise_zero (hkeys : (db.tables.map Table.key).Nodup) {c : Change}
    (hrows : ∀ t, db.table? s.table = some t →
      (∀ column ∈ (c.onRows s t).columns, t.isId column = false) ∨
        t.rows.Pairwise fun a b => a.id < b.id)
    (h : s.revise (c.revision s) db = .ok (0, db')) : db' = db := by
  obtain ⟨t, t', ht, hupdate, rfl⟩ := Database.onTable_ok h
  rw [Table.eq_of_update_zero (hrows t ht) hupdate]
  exact Database.setTable_self hkeys ht

end Schema

/-! ### Edits -/

namespace Editing

open Procedure

variable {s : Schema} {db db' : Database}

theorem ends_element {id : Int} {answer : Except TreeError Node}
    (h : (element id).Ends s db answer db') :
    db' = db ∧ ((∃ n, s.element? id db = .ok (some n) ∧ answer = .ok n) ∨
      s.element? id db = .ok none ∧ answer = .error (.notFound id)) := by
  obtain ⟨found, db₁, hfind, hrest⟩ | ⟨e, herror, -⟩ := ends_bind.1 h
  · obtain ⟨found', hstatement, ⟨⟩⟩ := ends_request.1 hfind
    obtain ⟨hanswer, rfl⟩ := Request.ask_ok hstatement
    cases found with
    | none =>
      obtain ⟨rfl, rfl⟩ := ends_throw.1 hrest
      exact ⟨rfl, .inr ⟨hanswer, rfl⟩⟩
    | some n =>
      obtain ⟨rfl, rfl⟩ := ends_pure.1 hrest
      exact ⟨rfl, .inl ⟨n, hanswer, rfl⟩⟩
  · exact absurd herror (not_ends_error (smooth_request _))

theorem ends_element_ok {id : Int} {n : Node} (h : (element id).Ends s db (.ok n) db') :
    db' = db ∧ s.element? id db = .ok (some n) := by
  obtain ⟨hdb, ⟨_, hfound, ⟨⟩⟩ | ⟨-, ⟨⟩⟩⟩ := ends_element h
  exact ⟨hdb, hfound⟩

theorem not_ends_element_error {id : Int} (hid : s.Has db id) {e : TreeError} :
    ¬(element id).Ends s db (.error e) db' := by
  intro h
  obtain ⟨-, ⟨_, -, ⟨⟩⟩ | ⟨hnone, -⟩⟩ := ends_element h
  exact Schema.not_has_of_element? hnone hid

/-- No row comes or goes while the destination is prepared, so both nodes are found again. -/
theorem not_ends_relocate_error (ha : s.Apart db) {node target : Node} {tie : Tie} {parent : Int}
    (hnode : s.Has db node.id) (htarget : s.Has db target.id) {e : TreeError} :
    ¬(relocate node tie target parent).Ends s db (.error e) db' := by
  have hrevise : ∀ (q : Request) (db₁ : Database) (a : q.Reply) (db₂ : Database),
      (∃ c : Change, q = .revise c ∧ c.isStructural = true) →
      (s.Apart db₁ ∧ s.Has db₁ node.id ∧ s.Has db₁ target.id) →
      q.statement s db₁ = .ok (a, db₂) →
      s.Apart db₂ ∧ s.Has db₂ node.id ∧ s.Has db₂ target.id := by
    rintro q db₁ a db₂ ⟨c, rfl, hc⟩ ⟨ha₁, hnode₁, htarget₁⟩ hstatement
    obtain ⟨ha₂, hhas⟩ := ha₁.revise hc hstatement
    exact ⟨ha₂, hhas _ hnode₁, hhas _ htarget₁⟩
  intro h
  obtain ⟨_, db₁, hroom, h₁⟩ | ⟨e', herror, -⟩ := ends_bind.1 h
  swap
  · exact not_ends_error (smooth_makeRoom _ _) herror
  obtain ⟨_, db₂, hreparent, h₂⟩ | ⟨e', herror, -⟩ := ends_bind.1 h₁
  swap
  · exact not_ends_error (smooth_request _) herror
  have hfirst := ends_preserves (issues_makeRoom ⟨_, rfl, rfl⟩ ⟨_, rfl, rfl⟩) hrevise
    ⟨ha, hnode, htarget⟩ hroom
  obtain ⟨-, hnode₂, htarget₂⟩ :=
    ends_preserves (issues_request ⟨_, rfl, rfl⟩) hrevise hfirst hreparent
  obtain ⟨target', db₃, hfound, h₃⟩ | ⟨e', herror, -⟩ := ends_bind.1 h₂
  swap
  · exact not_ends_element_error htarget₂ herror
  obtain ⟨rfl, -⟩ := ends_element_ok hfound
  refine not_ends_element_error hnode₂ (ends_error_of_smooth ?_ h₃)
  intro current
  exact smooth_bind (smooth_shift _ _) fun _ => smooth_bind (smooth_collapse _) fun _ =>
    smooth_tell _

theorem database_of_moveTo_error (tie : Tie) (ha : s.Apart db) {id targetId : Int}
    {e : TreeError} (h : (moveTo id tie targetId).Ends s db (.error e) db') : db' = db := by
  unfold moveTo at h
  by_cases hself : targetId = id
  · rw [if_pos hself] at h
    exact absurd h (not_ends_error (smooth_bind (smooth_tell _) fun _ => smooth_pure _))
  rw [if_neg hself] at h
  obtain ⟨target, db₁, htarget, h₁⟩ | ⟨e', herror, -⟩ := ends_bind.1 h
  swap
  · exact (ends_element herror).1
  obtain ⟨rfl, htarget⟩ := ends_element_ok htarget
  obtain ⟨node, db₂, hnode, h₂⟩ | ⟨e', herror, -⟩ := ends_bind.1 h₁
  swap
  · exact (ends_element herror).1
  obtain ⟨rfl, hnode⟩ := ends_element_ok hnode
  by_cases hc : node.bounds.contains target.bounds = true
  · rw [if_pos hc] at h₂
    obtain ⟨_, db₃, htell, hthrow⟩ | ⟨e', herror, -⟩ := ends_bind.1 h₂
    · exact (ends_throw.1 hthrow).2.trans (ends_tell.1 htell).2
    · exact (ends_tell.1 herror).2
  rw [if_neg hc] at h₂
  cases hp : tie.parent? target with
  | none =>
    rw [hp] at h₂
    exact (ends_throw.1 h₂).2
  | some parent =>
    rw [hp] at h₂
    have hmoved := ends_error_of_smooth (fun _ => smooth_pure _) h₂
    obtain ⟨rfl, hnode⟩ := Schema.has_of_element? hnode
    obtain ⟨rfl, htarget⟩ := Schema.has_of_element? htarget
    exact absurd hmoved (not_ends_relocate_error ha hnode htarget)

theorem database_of_add_error {payload : Payload} {placement : Placement} {e : TreeError}
    (h : (add s payload placement).Ends s db (.error e) db') : db' = db := by
  obtain ⟨values, db₁, hvalues, hrest⟩ | ⟨e', herror, -⟩ := ends_bind.1 h
  swap
  · exact (ends_lift.1 herror).2
  obtain ⟨-, rfl⟩ := ends_lift.1 hvalues
  refine database_of_ends (issues_site rfl fun _ => rfl) (ends_error_of_smooth ?_ hrest)
  rintro ⟨parent, pivot⟩
  exact smooth_bind (smooth_makeLeafRoom parent pivot) fun _ => smooth_bind (smooth_drawId s.ids)
    fun _ => smooth_bind (smooth_request _) fun _ => smooth_bind (smooth_tell _) fun _ =>
      smooth_pure _

theorem database_of_remove_error {id : Int} {e : TreeError}
    (h : (remove id).Ends s db (.error e) db') : db' = db := by
  refine (ends_element (ends_error_of_smooth ?_ h)).1
  intro node
  exact smooth_bind (smooth_request _) fun rows => smooth_bind (smooth_collapse _) fun _ =>
    smooth_bind (smooth_tell _) fun _ => smooth_pure rows

theorem database_of_update_error (hkeys : (db.tables.map Table.key).Nodup)
    (hrows : ∀ t, db.table? s.table = some t →
      (∀ f ∈ s.fields, t.isId f.column = false) ∨ t.rows.Pairwise fun a b => a.id < b.id)
    {id : Int} {payload : Payload} {e : TreeError}
    (h : (update s id payload).Ends s db (.error e) db') : db' = db := by
  unfold update at h
  by_cases he : payload.isEmpty = true
  · rw [if_pos he] at h
    exact (ends_throw.1 h).2
  rw [if_neg he] at h
  obtain ⟨values, db₁, hvalues, h₁⟩ | ⟨e', herror, -⟩ := ends_bind.1 h
  swap
  · exact (ends_lift.1 herror).2
  obtain ⟨hresolve, rfl⟩ := ends_lift.1 hvalues
  obtain ⟨(rows : Nat), db₂, hrevise, h₂⟩ | ⟨e', herror, -⟩ := ends_bind.1 h₁
  swap
  · exact absurd herror (not_ends_error (smooth_request _))
  obtain ⟨_, hstatement, ⟨⟩⟩ := ends_request.1 hrevise
  by_cases hzero : rows = 0
  · subst hzero
    obtain ⟨-, rfl⟩ := ends_throw.1 h₂
    refine Schema.database_of_revise_zero hkeys (c := .payload id values) ?_ hstatement
    intro t ht
    refine (hrows t ht).imp_left ?_
    intro hfields column hcolumn
    obtain ⟨f, hf, rfl⟩ := Change.exists_field_of_payload
      (Schema.mem_fields_of_resolve hresolve.symm) hcolumn
    exact hfields f hf
  · simp only [hzero, if_false] at h₂
    exact absurd h₂ (not_ends_error (smooth_tell _))

end Editing

/-- An edit that fails for a reason of its own has written nothing. -/
theorem Edit.database_of_error {s : Schema} {db db' : Database} (ha : s.Apart db)
    (hkeys : (db.tables.map Table.key).Nodup)
    (hrows : ∀ t, db.table? s.table = some t →
      (∀ f ∈ s.fields, t.isId f.column = false) ∨ t.rows.Pairwise fun a b => a.id < b.id)
    {e : Edit} {error : TreeError} (h : (e.procedure s).Ends s db (.error error) db') :
    db' = db := by
  cases e with
  | add payload placement => exact Editing.database_of_add_error (Procedure.ends_error_of_map h)
  | remove id => exact Editing.database_of_remove_error (Procedure.ends_error_of_map h)
  | move id placement =>
    have hmove := Procedure.ends_error_of_map h
    cases placement with
    | root => exact (Procedure.ends_throw.1 hmove).2
    | firstChildOf target => exact Editing.database_of_moveTo_error .firstChild ha hmove
    | after target => exact Editing.database_of_moveTo_error .nextSibling ha hmove
  | update id payload =>
    exact Editing.database_of_update_error hkeys hrows (Procedure.ends_error_of_map h)
  | copy id placement => exact (Procedure.ends_throw.1 (Procedure.ends_error_of_map h)).2

end NestedSet
