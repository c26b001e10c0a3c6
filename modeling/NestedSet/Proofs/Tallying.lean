import Mathlib
import NestedSet.Proofs.Invariance

/-!
# A counter beyond all ids

A sequence keeps a counter for a table. The counter is set before a row brings
its number, and from the largest id where there is none yet. So wherever an
edit stops, no id of the table is beyond the counter, and a row that is
inserted never meets its own id.
-/

set_option autoImplicit false

namespace NestedSet

/-! ### Ids of a table -/

namespace Table

variable {t t' : Table}

theorem isId_congr (hid : t'.id = t.id) (hcolumns : t'.columns = t.columns) : t'.isId = t.isId := by
  rw [eq_of_columns hid hcolumns]
  rfl

theorem id_revise {u : Revision Row} (hu : ∀ c ∈ u.columns, t.isId c = false) (r : Row) :
    (t.revise u r).id = r.id := by
  unfold revise
  split
  · refine revised_congr (·.id) (fun c hc v r => ?_) r
    rw [assign, hu c hc]
    rfl
  · rfl

theorem objection?_ne_of_free (ht : t.duplicate? = none) {others : List Row} {r : Row}
    (hfree : ∀ o ∈ others, o.id ≠ r.id) (given : List Identifier) (table : String) :
    t.objection? given others r ≠ some (.notUnique table t.id.name) := by
  have hany : others.any (·.id == r.id) = false := by
    rw [List.any_eq_false]
    exact fun o ho => by simpa using hfree o ho
  unfold objection?
  simp only [hany, Bool.and_false, Bool.false_eq_true, if_false]
  split
  · simp
  · intro h
    obtain ⟨c, hclash, hname⟩ := Option.map_eq_some_iff.1 h
    have hmem := List.mem_reverse.1 (List.mem_of_find?_eq_some hclash)
    have hfresh := (nodup_of_repeated? ht).2 c.name
      (List.mem_map_of_mem (List.mem_filter.1 hmem).1)
    have hsame : c.name = t.id := by
      rw [Refusal.notUnique.injEq] at hname
      exact congrArg Identifier.mk hname.2
    exact hfresh (by simp [hsame])

end Table

theorem Value.foldl_max_integer (ids : List Int) (n : Int) :
    (ids.map Value.integer).foldl Value.max (.integer n) = .integer (ids.foldl Max.max n) := by
  induction ids generalizing n with
  | nil => rfl
  | cons i rest ih =>
    have hfirst : Value.max (.integer n) (.integer i) = .integer (Max.max n i) := by
      rw [Value.max, Value.le_integer, max_def]
      split_ifs <;> simp_all
    rw [List.map_cons, List.foldl_cons, hfirst, ih, List.foldl_cons]

namespace Schema

theorem largestId_eq {s : Schema} {db : Database} {t : Table}
    (ht : db.table? s.table = some t) (hid : t.isId s.id = true) :
    s.largestId db = .ok (t.largestId?.getD 0) := by
  have hids : (t.rows.map fun r => (t.cell s.id r).value) = (t.rows.map (·.id)).map .integer := by
    rw [List.map_map]
    apply List.map_congr_left
    intro r _
    rw [Table.cell_of_isId hid]
    rfl
  simp only [largestId, Table.largestId?, Database.table, ht, bind, Except.bind, hids]
  cases t.rows.map (·.id) with
  | nil => rfl
  | cons i rest =>
    have hfirst : Value.max .null (.integer i) = .integer i := rfl
    rw [List.map_cons, List.foldl_cons, hfirst, Value.foldl_max_integer, List.max?_cons']
    rfl

theorem le_largestId {s : Schema} {db : Database} {t : Table} (ht : db.table? s.table = some t)
    (hid : t.isId s.id = true) {last : Int} (h : s.largestId db = .ok last) :
    ∀ r ∈ t.rows, r.id ≤ last := by
  intro r hr
  have hmem : r.id ∈ t.rows.map (·.id) := List.mem_map_of_mem hr
  rw [largestId_eq ht hid] at h
  obtain rfl := Except.ok.inj h
  cases hmax : t.largestId? with
  | none => simp [List.max?_eq_none_iff.1 hmax] at hmem
  | some m => exact (List.max?_eq_some_iff.1 hmax).2 _ hmem

theorem largestId_le {s : Schema} {db : Database} {t : Table} (ht : db.table? s.table = some t)
    (hid : t.isId s.id = true) {limit : Int} (hlimit : 0 ≤ limit)
    (hrows : ∀ r ∈ t.rows, r.id ≤ limit) {last : Int} (h : s.largestId db = .ok last) :
    last ≤ limit := by
  rw [largestId_eq ht hid] at h
  obtain rfl := Except.ok.inj h
  cases hmax : t.largestId? with
  | none => exact hlimit
  | some m =>
    obtain ⟨r, hr, rfl⟩ := List.mem_map.1 (List.max?_eq_some_iff.1 hmax).1
    exact hrows r hr

end Schema

/-! ### Statements -/

def Request.numbers : Request → Bool
  | .setCounter _ _ => true
  | .insert .. => true
  | _ => false

/-- A schema of a tree in a table, with covered types, that draws its ids from a sequence; both are
named alike by all of them. Its id column, and no other column of its, stands for the ids of the
table. -/
structure Schema.Draws (name sequence : Identifier) (t₀ : Table) (s : Schema) : Prop where
  table : s.table = name
  ids : s.ids = .sequence sequence
  covered : s.IsCovered
  apart : s.IdsApart t₀

/-- A table and its sequence with the counter for it. Where there is one, no id is beyond it. -/
structure Tallies (name sequence : Identifier) (t₀ : Table) (db : Database) (t q : Table)
    (counter : WithBot Int) : Prop where
  found : db.table? name = some t
  id : t.id = t₀.id
  columns : t.columns = t₀.columns
  sequence : db.table? sequence = some q
  declared : Sequence.Declared q
  value : Sequence.value? q name.name = .ok counter
  bound : counter ≠ ⊥ → ∀ r ∈ t.rows, (r.id : WithBot Int) ≤ counter

namespace Tallies

variable {name sequence : Identifier} {t₀ t t' q : Table} {s : Schema} {db db' : Database}
  {counter : WithBot Int}

theorem isId (h : Tallies name sequence t₀ db t q counter) (hd : s.Draws name sequence t₀) :
    s.IdsApart t := by
  have hsame := Table.isId_congr h.id h.columns
  exact ⟨hsame ▸ hd.apart.id, hsame ▸ hd.apart.others⟩

theorem setTable (h : Tallies name sequence t₀ db t q counter) (hne : sequence.key ≠ name.key)
    (hname : t'.name = t.name) (hid : t'.id = t.id) (hcolumns : t'.columns = t.columns)
    (hbound : counter ≠ ⊥ → ∀ r ∈ t'.rows, (r.id : WithBot Int) ≤ counter) :
    Tallies name sequence t₀ (db.setTable t') t' q counter :=
  ⟨Database.table?_setTable_self h.found hname, hid.trans h.id, hcolumns.trans h.columns,
    (Database.table?_setTable_apart h.found hname hne).trans h.sequence, h.declared, h.value,
    hbound⟩

theorem of_statement (h : Tallies name sequence t₀ db t q counter) (hne : sequence.key ≠ name.key)
    (hd : s.Draws name sequence t₀) {r : Request} (hr : r.Proper s) (hn : r.numbers = false)
    {a : r.Reply} (hs : r.statement s db = .ok (a, db')) :
    ∃ t', Tallies name sequence t₀ db' t' q counter ∧
      ∀ r' ∈ t'.rows, ∃ r ∈ t.rows, r'.id = r.id := by
  have hsame : db' = db → ∃ t', Tallies name sequence t₀ db' t' q counter ∧
      ∀ r' ∈ t'.rows, ∃ r ∈ t.rows, r'.id = r.id := by
    rintro rfl
    exact ⟨t, h, fun r' hr' => ⟨r', hr', rfl⟩⟩
  have hrows : ∀ {t' : Table}, (∀ r' ∈ t'.rows, ∃ r ∈ t.rows, r'.id = r.id) → counter ≠ ⊥ →
      ∀ r' ∈ t'.rows, (r'.id : WithBot Int) ≤ counter := by
    intro t' hids hcounter r' hr'
    obtain ⟨r, hr, hid⟩ := hids r' hr'
    rw [hid]
    exact h.bound hcounter r hr
  have hfound : db.table? s.table = some t := by
    rw [hd.table]
    exact h.found
  cases r with
  | find id => exact hsame (Request.ask_ok hs).2
  | count => exact hsame (Request.ask_ok hs).2
  | counter sequence => exact hsame (Request.ask_ok hs).2
  | largestId => exact hsame (Request.ask_ok hs).2
  | setCounter sequence value => cases hn
  | insert id bounds parent values => cases hn
  | delete range =>
    obtain ⟨t₁, ht₁, -, rfl⟩ := Schema.deleteRange_ok hs
    obtain rfl : t = t₁ := Option.some.inj (hfound.symm.trans ht₁)
    have hids : ∀ r' ∈ (t.filterRows fun r => !s.deletes t range r).rows,
        ∃ r ∈ t.rows, r'.id = r.id :=
      fun r' hr' => ⟨r', (List.mem_filter.1 hr').1, rfl⟩
    exact ⟨_, h.setTable hne rfl rfl rfl (hrows hids), hids⟩
  | revise c =>
    obtain ⟨t₁, t₂, ht₁, hupdate, rfl⟩ :=
      Database.onTable_ok (show s.revise (c.revision s) db = _ from hs)
    obtain rfl : t = t₁ := Option.some.inj (hfound.symm.trans ht₁)
    have hwritten : ∀ column ∈ (c.onRows s t).columns, t.isId column = false :=
      fun column hcolumn => (h.isId hd).not_isId (Change.written_onRows hr column hcolumn)
    obtain ⟨-, rfl⟩ := Table.update_ok hwritten hupdate
    have hids : ∀ r' ∈ (t.mapRows (t.revise (c.onRows s t))).rows, ∃ r ∈ t.rows, r'.id = r.id := by
      intro r' hr'
      obtain ⟨r, hr, rfl⟩ := List.mem_map.1 hr'
      exact ⟨r, hr, Table.id_revise hwritten r⟩
    exact ⟨_, h.setTable hne rfl rfl rfl (hrows hids), hids⟩

theorem of_setCounter (h : Tallies name sequence t₀ db t q counter)
    (hne : sequence.key ≠ name.key) (hd : s.Draws name sequence t₀) {value : Int}
    (hbound : ∀ r ∈ t.rows, r.id ≤ value)
    (hs : s.setCounter sequence value db = .ok ((), db')) :
    ∃ q', Tallies name sequence t₀ db' t q' (value : WithBot Int) := by
  obtain ⟨q₁, q', hq₁, hset, rfl⟩ := Database.onTable_ok hs
  obtain rfl : q = q₁ := Option.some.inj (h.sequence.symm.trans hq₁)
  rw [hd.table] at hset
  obtain ⟨hdeclared, hvalue⟩ := Sequence.value?_set h.declared hset
  have hname := Sequence.name_of_set hset
  exact ⟨q', (Database.table?_setTable_apart h.sequence hname hne.symm).trans h.found, h.id,
    h.columns, Database.table?_setTable_self h.sequence hname, hdeclared, hvalue,
    fun _ r hr => WithBot.coe_le_coe.2 (hbound r hr)⟩

theorem of_insertNode {id : Int} (h : Tallies name sequence t₀ db t q id)
    (hne : sequence.key ≠ name.key) (hd : s.Draws name sequence t₀) {bounds : Bounds}
    {parent : Option Int} {values : List (Field × Value)} (hv : ∀ x ∈ values, x.1 ∈ s.fields)
    {a : Int} (hs : s.insertNode (some id) bounds parent values db = .ok (a, db')) :
    a = id ∧ ∃ t', Tallies name sequence t₀ db' t' q id ∧
      ∀ r ∈ t'.rows, r.id = id ∨ r ∈ t.rows := by
  have hfound : db.table? s.table = some t := by
    rw [hd.table]
    exact h.found
  obtain ⟨hgiven, -, -, hroom, rfl⟩ := Schema.insertNode_of_idsApart hfound (h.isId hd) hv hs
  obtain rfl := hgiven id rfl
  have hrows : ∀ r ∈ (t.withRow (t.newRow a (s.entry (some a) bounds parent values)) hroom).rows,
      r.id = a ∨ r ∈ t.rows := by
    intro r hr
    rcases List.mem_cons.1 ((Table.perm_insertById _ _).mem_iff.1 hr) with rfl | hr
    · exact .inl rfl
    · exact .inr hr
  refine ⟨rfl, _, h.setTable hne rfl rfl rfl ?_, hrows⟩
  intro hcounter r hr
  rcases hrows r hr with hid | hr
  · exact (congrArg _ hid).le
  · exact h.bound hcounter r hr

theorem insertNode_ne {id : Int} (h : Tallies name sequence t₀ db t q id)
    (hd : s.Draws name sequence t₀) (ht₀ : t₀.duplicate? = none)
    (hfree : ∀ r ∈ t.rows, r.id < id) {bounds : Bounds} {parent : Option Int}
    {values : List (Field × Value)} (hv : ∀ x ∈ values, x.1 ∈ s.fields) (table : String) :
    s.insertNode (some id) bounds parent values db ≠ .error (.notUnique table t₀.id.name) := by
  have hplain : t.duplicate? = none := by
    rw [Table.duplicate?, h.id, h.columns]
    exact ht₀
  have hfound : db.table? s.table = some t := by
    rw [hd.table]
    exact h.found
  intro hs
  unfold Schema.insertNode at hs
  simp only [Database.onTable, Database.table, hfound, bind, Except.bind] at hs
  cases hstranger : t.stranger? ((s.entry (some id) bounds parent values).map (·.1)) with
  | some column => simp [hstranger] at hs
  | none =>
    cases hinsert : t.insert db.faults (s.entry (some id) bounds parent values) with
    | ok x => simp [hstranger, hinsert, pure, Except.pure] at hs
    | error refusal =>
      simp only [hstranger, hinsert, Except.error.injEq] at hs
      subst hs
      obtain ⟨new, hnew, -, hobjection⟩ := Table.insert_notUnique
        (Schema.broughtId_entry (h.isId hd) hv (some id) bounds parent) hinsert
      obtain rfl := hnew id rfl
      rw [← h.id] at hobjection
      exact Table.objection?_ne_of_free hplain (fun o ho => (hfree o ho).ne) _ _ hobjection

end Tallies

/-! ### What a procedure ensures -/

namespace Procedure

variable {α β : Type} {s : Schema} {induced : Refusal → Prop} {pre : Database → Prop}
  {post : Except TreeError α → Database → Prop}

/-- On any desk with a database of some kind and induced failures of some kind, the procedure comes
to an answer and a database as told. -/
def Ensures (s : Schema) (induced : Refusal → Prop) (pre : Database → Prop) (p : Procedure α)
    (post : Except TreeError α → Database → Prop) : Prop :=
  ∀ d : Desk, pre d.database → (∀ refusal, some refusal ∈ d.mishaps → induced refusal) →
    post (p.result s d).1 (p.result s d).2.database

def either (ok : α → Database → Prop) (error : TreeError → Database → Prop) :
    Except TreeError α → Database → Prop
  | .ok a => ok a
  | .error e => error e

theorem ensures_done {answer : Except TreeError α} (h : ∀ db, pre db → post answer db) :
    (done answer).Ensures s induced pre post := fun d hd _ => h d.database hd

theorem Ensures.imp {p : Procedure α} {post' : Except TreeError α → Database → Prop}
    (hp : p.Ensures s induced pre post) (h : ∀ answer db, post answer db → post' answer db) :
    p.Ensures s induced pre post' := fun d hd hm => h _ _ (hp d hd hm)

theorem mishaps_of_result {p : Procedure α} {d : Desk} {refusal : Refusal}
    (h : some refusal ∈ (p.result s d).2.mishaps) : some refusal ∈ d.mishaps := by
  rw [mishaps_result] at h
  exact List.mem_of_mem_drop h

theorem ensures_bind {p : Procedure α} {f : α → Procedure β}
    {post' : Except TreeError β → Database → Prop} (hp : p.Ensures s induced pre post)
    (hok : ∀ a, (f a).Ensures s induced (post (.ok a)) post')
    (herror : ∀ e db, post (.error e) db → post' (.error e) db) :
    (p >>= f).Ensures s induced pre post' := by
  intro d hd hm
  have hfirst := hp d hd hm
  have hmishaps := fun refusal (h : some refusal ∈ (p.result s d).2.mishaps) =>
    hm refusal (mishaps_of_result h)
  rw [result_bind]
  rcases hr : p.result s d with ⟨answer, d'⟩
  rw [hr] at hfirst hmishaps
  cases answer with
  | ok a => exact hok a d' hfirst hmishaps
  | error e => exact herror e d'.database hfirst

theorem ensures_bind_lift {answer : Except TreeError α} {f : α → Procedure β}
    {post : Except TreeError β → Database → Prop}
    (hok : ∀ a, answer = .ok a → (f a).Ensures s induced pre post)
    (herror : ∀ e, answer = .error e → ∀ db, pre db → post (.error e) db) :
    ((liftM answer : Procedure α) >>= f).Ensures s induced pre post := by
  cases answer with
  | ok a => exact hok a rfl
  | error e => exact ensures_done (herror e rfl)

theorem ensures_map {p : Procedure α} {f : α → β} {post' : Except TreeError β → Database → Prop}
    (hp : p.Ensures s induced pre fun answer db => post' (answer.map f) db) :
    (f <$> p).Ensures s induced pre post' :=
  ensures_bind hp (fun _ => ensures_done fun _ h => h) fun _ _ h => h

end Procedure

theorem Desk.outcome_error {s : Schema} {q : Request} {d : Desk} {refusal : Refusal}
    (h : d.outcome s q = .error refusal) : some refusal ∈ d.mishaps ∨ refusal = .locked ∨
      q.statement s d.database = .error refusal := by
  unfold outcome at h
  cases hm : d.mishap? with
  | some fate =>
    rw [hm] at h
    obtain rfl := Except.error.inj h
    rw [mishap?, Option.join_eq_some_iff] at hm
    exact .inl (List.mem_of_mem_head? hm)
  | none =>
    simp only [hm] at h
    split at h
    · exact .inr (.inr h)
    · unfold allow at h
      cases hs : q.statement s d.database with
      | ok x =>
        rw [hs] at h
        split at h
        · exact .inr (.inl (Except.error.inj h).symm)
        · cases h
      | error own =>
        rw [hs] at h
        split at h
        · obtain rfl := Except.error.inj h
          split_ifs
          · exact .inr (.inr rfl)
          · exact .inr (.inl rfl)
        · exact .inr (.inr h)

namespace Procedure

variable {α : Type} {s : Schema} {induced : Refusal → Prop} {pre : Database → Prop}

theorem ensures_request {q : Request} {post : Except TreeError q.Reply → Database → Prop}
    (hok : ∀ db a db', pre db → q.statement s db = .ok (a, db') → post (.ok a) db')
    (herror : ∀ db refusal, pre db →
      (induced refusal ∨ refusal = .locked ∨ q.statement s db = .error refusal) →
      post (.error (.backend q.step refusal)) db) :
    (request q).Ensures s induced pre post := by
  intro d hd hm
  unfold request result Desk.serve
  cases ho : d.outcome s q with
  | error refusal =>
    refine herror d.database refusal hd ?_
    rcases Desk.outcome_error ho with h | h
    · exact .inl (hm refusal h)
    · exact .inr h
  | ok x => exact hok d.database x.1 x.2 hd (Desk.statement_of_outcome ho)

/-- What every request keeps holds where the procedure stops, and a refusal belongs to one. -/
theorem ensures_of_issues {P : Request → Prop} {p : Procedure α} (hp : p.Issues P) (hh : p.Honest)
    (hI : ∀ (q : Request) (db : Database) (a : q.Reply) (db' : Database),
      P q → pre db → q.statement s db = .ok (a, db') → pre db') :
    p.Ensures s induced pre fun answer db => pre db ∧ ∀ step refusal,
      answer = .error (.backend step refusal) → ∃ q, P q ∧ q.step = step := by
  intro d hd _
  refine ⟨result_preserves hp hI hd, ?_⟩
  intro step refusal herror
  obtain ⟨q, hcall, hstep⟩ := exists_mem_calls hh herror
  exact ⟨q, of_mem_calls hp hcall, hstep⟩

end Procedure

open Editing Procedure in
/-- What an add ensures: looking up and making room keep what they begin with, and so does a halt on
the way; an id is drawn, and a row is inserted with it. -/
theorem Edit.ensures_add {s : Schema} {induced : Refusal → Prop} {P : Request → Prop}
    {pre : Database → Prop} {drawn : Int → Database → Prop} {halted : TreeError → Database → Prop}
    {post : Except TreeError Answer → Database → Prop} {payload : Payload} {placement : Placement}
    (hcount : P .count) (hfind : ∀ id, P (.find id))
    (hlefts : ∀ pivot, P (.revise (.pushLefts pivot 2)))
    (hrights : ∀ pivot, P (.revise (.pushRights pivot 2)))
    (hquiet : ∀ {α : Type} {p : Procedure α}, p.Issues P → p.Honest →
      p.Ensures s induced pre (either (fun _ => pre) halted))
    (hdraw : (drawId s.ids).Ensures s induced pre
      (either (fun a db => ∃ id, a = some id ∧ drawn id db) halted))
    (hinsert : ∀ {id bounds parent values}, (∀ x ∈ values, x.1 ∈ s.fields) →
      (request (.insert (some id) bounds parent values)).Ensures s induced (drawn id)
        (fun answer => post (answer.map .created)))
    (hhalted : ∀ e db, halted e db → post (.error e) db)
    (hunresolved : ∀ e db, pre db → (∀ step refusal, e ≠ .backend step refusal) →
      post (.error e) db) :
    ((Edit.add payload placement).procedure s).Ensures s induced pre post := by
  refine ensures_map (ensures_bind_lift ?_ ?_)
  · intro values hvalues
    refine ensures_bind (hquiet (issues_site hcount hfind) (honest_site placement)) ?_ hhalted
    intro (parent, pivot)
    refine ensures_bind (hquiet (issues_makeLeafRoom (hlefts pivot) (hrights pivot))
      (honest_makeLeafRoom parent pivot)) ?_ hhalted
    intro _
    refine ensures_bind hdraw ?_ hhalted
    rintro _ d ⟨id, rfl, hdrawn⟩ hm
    have hlast : ∀ a : Int, (do
        Procedure.tell (.added a (.leafAfter pivot) parent)
        return a : Procedure Int).Ensures s induced (fun db => post (.ok (.created a)) db)
          (fun answer => post (answer.map .created)) :=
      fun a d h _ => h
    exact ensures_bind (hinsert (Schema.mem_fields_of_resolve hvalues)) hlast (fun _ _ h => h) d
      hdrawn hm
  · intro e he db h
    refine hunresolved e db h ?_
    rintro step refusal rfl
    exact Schema.resolve_ne_backend s payload _ _ he

end NestedSet
