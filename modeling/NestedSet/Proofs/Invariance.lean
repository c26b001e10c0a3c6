import Mathlib
import NestedSet.Proofs.Consistency
import NestedSet.Proofs.Undisturbed

/-!
# What every statement keeps

A property of databases that no answered statement of an edit breaks survives
whole runs: of one edit, whether it succeeds or fails and wherever it stops,
and of sessions in which several handles work in transactions that are
committed, rolled back, or lost.
-/

set_option autoImplicit false

namespace NestedSet

/-! ### The requests of a procedure -/

namespace Procedure

variable {α β : Type} {s : Schema} {P : Request → Prop}

def Issues (P : Request → Prop) : Procedure α → Prop
  | done _ => True
  | issue q next => P q ∧ ∀ a, (next a).Issues P
  | report _ next => next.Issues P

theorem issues_pure (a : α) : (pure a : Procedure α).Issues P := trivial

theorem issues_throw (e : TreeError) : (throw e : Procedure α).Issues P := trivial

theorem issues_tell (event : Event) : (tell event).Issues P := trivial

theorem issues_request {q : Request} (h : P q) : (request q).Issues P := ⟨h, fun _ => trivial⟩

theorem issues_bind {p : Procedure α} {f : α → Procedure β} (hp : p.Issues P)
    (hf : ∀ a, (f a).Issues P) : (p >>= f).Issues P := by
  change (p.bind f).Issues P
  induction p with
  | done answer =>
    cases answer with
    | ok a => exact hf a
    | error e => trivial
  | issue q next ih => exact ⟨hp.1, fun a => ih a (hp.2 a)⟩
  | report event next ih => exact ih hp

theorem issues_bind_lift {answer : Except TreeError α} {f : α → Procedure β}
    (hf : ∀ a, answer = .ok a → (f a).Issues P) :
    ((liftM answer : Procedure α) >>= f).Issues P := by
  cases answer with
  | ok a => exact hf a rfl
  | error e => trivial

theorem issues_map {f : α → β} {p : Procedure α} (hp : p.Issues P) : (f <$> p).Issues P :=
  issues_bind hp fun _ => trivial

/-- A property that survives every answered statement survives the run. -/
theorem result_preserves {I : Database → Prop} {p : Procedure α} (hp : p.Issues P)
    (hI : ∀ (q : Request) (db : Database) (a : q.Reply) (db' : Database),
      P q → I db → q.statement s db = .ok (a, db') → I db')
    {d : Desk} (hd : I d.database) : I (p.result s d).2.database := by
  induction p generalizing d with
  | done answer => exact hd
  | issue q next ih =>
    simp only [result, Desk.serve]
    cases ho : d.outcome s q with
    | error refusal => exact hd
    | ok x => exact ih x.1 (hp.2 x.1) (hI q _ x.1 x.2 hp.1 hd (Desk.statement_of_outcome ho))
  | report event next ih => exact ih hp hd

theorem of_mem_calls {p : Procedure α} (hp : p.Issues P) {d : Desk} {q : Request}
    {verdict : Option Refusal} (h : (q, verdict) ∈ p.calls s d) : P q := by
  induction p generalizing d with
  | done answer => cases h
  | issue q' next ih =>
    simp only [calls] at h
    rcases hd : d.serve s q' with ⟨answer, d'⟩
    simp only [hd] at h
    cases answer with
    | error refusal =>
      cases List.mem_singleton.1 h
      exact hp.1
    | ok a =>
      rcases List.mem_cons.1 h with he | h
      · cases he
        exact hp.1
      · exact ih a (hp.2 a) h
  | report event next ih => exact ih hp h

theorem ends_preserves {I : Database → Prop} {p : Procedure α} (hp : p.Issues P)
    (hI : ∀ (q : Request) (db : Database) (a : q.Reply) (db' : Database),
      P q → I db → q.statement s db = .ok (a, db') → I db')
    {db db' : Database} {answer : Except TreeError α} (hdb : I db)
    (h : p.Ends s db answer db') : I db' := by
  obtain ⟨-, events, hresult⟩ := result_of_ends h []
  have hkept := result_preserves hp hI (d := ⟨db, [], [], false⟩) hdb
  rwa [hresult] at hkept

end Procedure

/-! ### The requests of an edit -/

namespace Editing

open Procedure

variable {P : Request → Prop}

theorem issues_element {id : Int} (h : P (.find id)) : (element id).Issues P := by
  apply issues_bind (issues_request h)
  intro found
  cases found with
  | none => exact issues_throw _
  | some n => exact issues_pure n

theorem issues_makeRoom {pivot width : Int} (hl : P (.revise (.pushLefts pivot width)))
    (hr : P (.revise (.pushRights pivot width))) : (makeRoom pivot width).Issues P :=
  issues_bind (issues_request hl) fun _ => issues_bind (issues_request hr) fun _ => issues_tell _

theorem issues_collapse {gap : Bounds} (hf : P (.revise (.pullFollowing gap)))
    (he : P (.revise (.pullEnclosing gap))) : (collapse gap).Issues P :=
  issues_bind (issues_request hf) fun _ => issues_bind (issues_request he) fun _ => issues_tell _

theorem issues_shift {subtree : Bounds} {offset : Int}
    (h : P (.revise (.shiftInside subtree offset))) : (shift subtree offset).Issues P :=
  issues_bind (issues_request h) fun _ => issues_tell _

theorem issues_drawId {ids : IdSource Identifier}
    (h : ∀ sequence, ids = .sequence sequence →
      P (.counter sequence) ∧ P .largestId ∧ ∀ value, P (.setCounter sequence value)) :
    (drawId ids).Issues P := by
  cases ids with
  | autoIncrement => exact issues_pure none
  | sequence sequence =>
    obtain ⟨hcounter, hlargest, hset⟩ := h sequence rfl
    have hlast : (lastDrawn sequence).Issues P := by
      apply issues_bind (issues_request hcounter)
      intro counter
      cases counter with
      | none => exact issues_request hlargest
      | some value => exact issues_pure value
    apply issues_bind hlast
    intro last
    exact issues_bind (issues_request (hset _)) fun _ => issues_pure _

theorem issues_site {placement : Placement} (hcount : P .count) (hfind : ∀ id, P (.find id)) :
    (site placement).Issues P := by
  cases placement with
  | root =>
    apply issues_bind (issues_request hcount)
    intro (nodes : Nat)
    by_cases h : nodes = 0
    · simp only [h, if_true]
      exact issues_pure _
    · simp only [h, if_false]
      exact issues_throw _
  | firstChildOf id => exact issues_bind (issues_element (hfind id)) fun _ => issues_pure _
  | after id =>
    apply issues_bind (issues_element (hfind id))
    intro sibling
    cases sibling.parent with
    | none => exact issues_throw _
    | some parent => exact issues_pure _

theorem issues_makeLeafRoom {parent : Option Int} {pivot : Int}
    (hl : P (.revise (.pushLefts pivot 2))) (hr : P (.revise (.pushRights pivot 2))) :
    (makeLeafRoom parent pivot).Issues P := by
  cases parent with
  | none => exact issues_pure ()
  | some parent => exact issues_makeRoom hl hr

theorem issues_examine {id : Int} {tie : Tie} {targetId : Int} (hfind : ∀ id, P (.find id)) :
    (examine id tie targetId).Issues P := by
  apply issues_bind (issues_element (hfind _))
  intro target
  apply issues_bind (issues_element (hfind _))
  intro node
  split
  · exact issues_bind (issues_tell _) fun _ => issues_throw _
  · cases tie.parent? target with
    | none => exact issues_throw _
    | some parent => exact issues_pure _

theorem issues_reopen {node target : Node} {tie : Tie} {parent : Int}
    (hfind : ∀ id, P (.find id))
    (hrevise : ∀ c : Change, (∀ id values, c ≠ .payload id values) → P (.revise c)) :
    (reopen node tie target parent).Issues P := by
  apply issues_bind (issues_makeRoom (hrevise _ (by simp)) (hrevise _ (by simp)))
  intro _
  apply issues_bind (issues_request (hrevise _ (by simp)))
  intro _
  apply issues_bind (issues_element (hfind _))
  intro target
  exact issues_bind (issues_element (hfind _)) fun _ => issues_pure _

theorem issues_relocate {node target : Node} {tie : Tie} {parent : Int}
    (hfind : ∀ id, P (.find id))
    (hrevise : ∀ c : Change, (∀ id values, c ≠ .payload id values) → P (.revise c)) :
    (relocate node tie target parent).Issues P := by
  rw [relocate_eq]
  apply issues_bind (issues_reopen hfind hrevise)
  rintro ⟨target, current⟩
  apply issues_bind (issues_shift (hrevise _ (by simp)))
  intro _
  exact issues_bind (issues_collapse (hrevise _ (by simp)) (hrevise _ (by simp)))
    fun _ => issues_tell _

theorem issues_moveTo (id : Int) (tie : Tie) (targetId : Int) (hfind : ∀ id, P (.find id))
    (hrevise : ∀ c : Change, (∀ id values, c ≠ .payload id values) → P (.revise c)) :
    (moveTo id tie targetId).Issues P := by
  by_cases h : targetId = id
  · rw [moveTo, if_pos h]
    exact issues_bind (issues_tell _) fun _ => issues_pure _
  rw [moveTo_of_ne h]
  apply issues_bind (issues_examine hfind)
  rintro ⟨node, target, parent⟩
  exact issues_bind (issues_relocate hfind hrevise) fun _ => issues_pure _

theorem issues_move {id : Int} {placement : Placement} (hfind : ∀ id, P (.find id))
    (hrevise : ∀ c : Change, (∀ id values, c ≠ .payload id values) → P (.revise c)) :
    (move id placement).Issues P := by
  cases placement with
  | root => exact issues_throw _
  | firstChildOf target =>
    exact issues_moveTo id .firstChild target hfind hrevise
  | after target => exact issues_moveTo id .nextSibling target hfind hrevise

theorem issues_remove {id : Int} (hfind : ∀ id, P (.find id)) (hdelete : ∀ range, P (.delete range))
    (hrevise : ∀ c : Change, (∀ id values, c ≠ .payload id values) → P (.revise c)) :
    (remove id).Issues P := by
  apply issues_bind (issues_element (hfind id))
  intro node
  apply issues_bind (issues_request (hdelete _))
  intro rows
  apply issues_bind (issues_collapse (hrevise _ (by simp)) (hrevise _ (by simp)))
  intro _
  exact issues_bind (issues_tell _) fun _ => issues_pure _

theorem issues_update {s : Schema} {id : Int} {payload : Payload}
    (h : ∀ values, s.resolve payload = .ok values → P (.revise (.payload id values))) :
    (update s id payload).Issues P := by
  unfold update
  by_cases he : payload.isEmpty = true
  · rw [if_pos he]
    exact issues_throw _
  rw [if_neg he]
  apply issues_bind_lift
  intro values hvalues
  apply issues_bind (issues_request (h values hvalues))
  intro (rows : Nat)
  by_cases hzero : rows = 0
  · simp only [hzero, if_true]
    exact issues_throw _
  · simp only [hzero, if_false]
    exact issues_tell _

end Editing

theorem Schema.mem_fields_of_resolve {s : Schema} {payload : Payload}
    {values : List (Field × Value)} (h : s.resolve payload = .ok values) :
    ∀ x ∈ values, x.1 ∈ s.fields := by
  rw [Schema.resolve_eq] at h
  cases ho : s.objection? payload with
  | some e =>
    rw [ho] at h
    cases h
  | none =>
    rw [ho] at h
    cases h
    exact fun x hx => Schema.fieldValues_mem hx

theorem Edit.issues_procedure (s : Schema) (e : Edit) :
    (e.procedure s).Issues (Request.Proper s) := by
  have hrevise : ∀ c : Change, (∀ id values, c ≠ .payload id values) →
      (Request.revise c).Proper s := by
    intro c hc
    cases c with
    | payload id values => exact absurd rfl (hc id values)
    | _ => trivial
  have hfind : ∀ id, (Request.find id).Proper s := fun _ => trivial
  cases e with
  | add payload placement =>
    apply Procedure.issues_map
    apply Procedure.issues_bind_lift
    intro values hvalues
    apply Procedure.issues_bind (Editing.issues_site trivial hfind)
    intro (parent, pivot)
    apply Procedure.issues_bind (Editing.issues_makeLeafRoom trivial trivial)
    intro _
    apply Procedure.issues_bind (Editing.issues_drawId fun _ hids => ⟨hids, trivial, fun _ => hids⟩)
    intro id
    apply Procedure.issues_bind (Procedure.issues_request (Schema.mem_fields_of_resolve hvalues))
    intro id
    exact Procedure.issues_bind (Procedure.issues_tell _) fun _ => Procedure.issues_pure _
  | remove id => exact Procedure.issues_map (Editing.issues_remove hfind (fun _ => trivial) hrevise)
  | move id placement => exact Procedure.issues_map (Editing.issues_move hfind hrevise)
  | update id payload =>
    exact Procedure.issues_map
      (Editing.issues_update fun _ hvalues => Schema.mem_fields_of_resolve hvalues)
  | copy id placement => exact Procedure.issues_map (Procedure.issues_throw _)

/-! ### Stores and sessions -/

/-- No answered statement of a schema's edits breaks the property. -/
def Schema.Maintains (s : Schema) (I : Database → Prop) : Prop :=
  ∀ (q : Request) (db : Database) (a : q.Reply) (db' : Database),
    q.Proper s → I db → q.statement s db = .ok (a, db') → I db'

/-- Wherever the edit stops, it takes what has the one property to what has the other. -/
structure Edit.Takes (s : Schema) (e : Edit) (I J : Database → Prop) : Prop where
  stays : ∀ db, I db → J db
  goes : ∀ d : Desk, I d.database → J ((e.procedure s).result s d).2.database

theorem Schema.Maintains.takes {s : Schema} {I : Database → Prop} (hI : s.Maintains I) (e : Edit) :
    e.Takes s I I :=
  ⟨fun _ h => h, fun _ hd => Procedure.result_preserves (e.issues_procedure s) hI hd⟩

/-- What was committed has the property, and so has the draft if there is one. -/
def Store.Every (I : Database → Prop) (s : Store) : Prop :=
  I s.committed ∧ ∀ w, s.writer = some w → I w.draft

namespace Store.Every

variable {I J : Database → Prop} {s t : Store} {c : Nat}

theorem imp (hs : s.Every I) (h : ∀ db, I db → J db) : s.Every J :=
  ⟨h _ hs.1, fun w hw => h _ (hs.2 w hw)⟩

theorem view (hs : s.Every I) (c : Nat) : I (s.view c) := by
  unfold Store.view
  cases hw : s.writer with
  | none => exact hs.1
  | some w =>
    by_cases hc : w.connection = c
    · simp only [hc, if_true]
      exact hs.2 w hw
    · simp only [hc, if_false]
      exact hs.1

theorem replace (hs : s.Every I) {db : Database} (hdb : I db) : (s.replace c db).Every I := by
  obtain ⟨committed, writer⟩ := s
  cases writer with
  | none => exact ⟨hdb, hs.2⟩
  | some w =>
    by_cases hc : w.connection = c
    · simp only [Store.replace, hc, if_true]
      refine ⟨hs.1, ?_⟩
      rintro x ⟨⟩
      exact hdb
    · simp only [Store.replace, hc, if_false]
      exact ⟨hdb, hs.2⟩

theorem abandon (hs : s.Every I) : (s.abandon c).Every I := by
  unfold Store.abandon
  split
  · exact ⟨hs.1, by simp⟩
  · exact hs

theorem start (hs : s.Every I) (h : s.start c = .ok t) : t.Every I := by
  obtain ⟨-, rfl⟩ := Store.start_ok h
  refine ⟨hs.1, ?_⟩
  rintro x ⟨⟩
  exact hs.1

theorem commit (hs : s.Every I) (h : s.commit c = .ok t) : t.Every I := by
  unfold Store.commit at h
  split at h
  next w hw =>
    split at h
    · cases h
      exact ⟨hs.2 w hw, by simp⟩
    · cases h
  next => cases h

theorem close (hs : s.Every I) {ending : Ending} {mishaps : Mishaps}
    (h : ending.close c mishaps s = .ok t) : t.Every I := by
  cases ending with
  | commit =>
    cases hm : mishaps.head?.join with
    | some refusal => simp [Ending.close, hm] at h
    | none =>
      simp only [Ending.close, hm] at h
      exact hs.commit h
  | rollback =>
    unfold Ending.close Store.rollback at h
    simp only at h
    split at h
    · cases h
      exact hs.abandon
    · cases h
  | drop =>
    cases h
    exact hs.abandon

theorem editWithin (hs : s.Every I) {h : Handle} {e : Edit} (he : e.Takes h.schema I J)
    (mishaps : Mishaps) : (h.editWithin s e mishaps).store.Every J := by
  have hresult := he.goes ⟨s.view h.connection, mishaps, [], !s.mayWrite h.connection⟩
    (hs.view h.connection)
  have hs := hs.imp he.stays
  unfold Handle.editWithin Store.run
  rcases hr : (e.procedure h.schema).result h.schema
    ⟨s.view h.connection, mishaps, [], !s.mayWrite h.connection⟩ with ⟨answer, d⟩
  rw [hr] at hresult
  cases answer with
  | ok a => exact hs.replace hresult
  | error error =>
    by_cases he : (error.endsTransaction && s.isWriting h.connection) = true
    · simp only [he, if_true]
      exact hs.abandon
    · simp only [he]
      exact hs.replace hresult

theorem edit (hs : s.Every I) {h : Handle} {e : Edit} (he : e.Takes h.schema I J)
    (mishaps : Mishaps) : (h.edit s e mishaps).store.Every J := by
  have hstay := hs.imp he.stays
  cases ha : (h.edit s e mishaps).answer with
  | error error =>
    rw [Handle.store_of_error ha]
    exact hstay
  | ok a =>
    cases hm : mishaps.head?.join with
    | some refusal => simp [Handle.edit_of_mishap hm] at ha
    | none =>
      obtain ⟨db, writer⟩ := s
      cases writer with
      | some w => simp [Handle.edit_of_writer hm] at ha
      | none =>
        have hresult := he.goes { database := db, mishaps := mishaps.tail } hs.1
        rcases hr : (e.procedure h.schema).result h.schema
          { database := db, mishaps := mishaps.tail } with ⟨answer, d⟩
        rw [hr] at hresult
        cases answer with
        | error error => simp [Handle.edit_of_error hm hr] at ha
        | ok b =>
          rw [Handle.edit_of_ok hm hr]
          cases d.mishaps.head?.join with
          | some refusal => exact hstay
          | none => exact ⟨hresult, by simp⟩

end Store.Every

namespace Session

variable {I J : Database → Prop} {s : Session} {h : Handle}

theorem every_edit (hs : s.store.Every I) {e : Edit} (he : e.Takes h.schema I J)
    (mishaps : Mishaps) : (s.edit h e mishaps).store.Every J := by
  unfold edit
  split
  · exact hs.editWithin he mishaps
  · exact hs.edit he mishaps

theorem every_moveAll (hs : s.store.Every I) {placement : Placement}
    (hmove : ∀ id, (Edit.move id placement).Takes h.schema I I) (ids : List Int)
    (mishaps : Mishaps) : (s.moveAll h placement ids mishaps).2.1.store.Every I := by
  induction ids generalizing s mishaps with
  | nil => exact hs
  | cons id rest ih => exact ih (s := { s with store := _ }) (every_edit hs (hmove id) mishaps) _

theorem every_perform (hs : s.store.Every I) (he : ∀ e : Edit, e.Takes h.schema I J)
    (hmove : ∀ id placement, (Edit.move id placement).Takes h.schema I I) (command : Command)
    (mishaps : Mishaps) : (s.perform h command mishaps).2.1.store.Every J := by
  have hstay : ∀ {store : Store}, store.Every I → store.Every J :=
    fun hstore => hstore.imp (he (.remove 0)).stays
  cases command with
  | edit e => exact every_edit hs (he e) mishaps
  | moveAll ids placement => exact hstay (every_moveAll hs (hmove · placement) ids mishaps)
  | begin =>
    simp only [perform]
    cases hb : s.begin h mishaps with
    | error e => exact hstay hs
    | ok t =>
      obtain ⟨store, hstart, rfl⟩ := begin_ok hb
      exact hstay (hs.start hstart)
  | finish ending =>
    simp only [perform, finish]
    cases hc : ending.close h.connection mishaps s.store with
    | ok store => exact hstay (hs.close hc)
    | error e => exact hstay hs.abandon
  | endBehind => exact hstay hs.abandon

theorem every_run (hs : s.store.Every I) {steps : List (Handle × Command × Mishaps)}
    (hI : ∀ x ∈ steps, x.1.schema.Maintains I) : (s.run steps).2.store.Every I := by
  induction steps generalizing s with
  | nil => exact hs
  | cons x rest ih =>
    obtain ⟨h, command, mishaps⟩ := x
    rw [List.forall_mem_cons] at hI
    exact ih (every_perform hs hI.1.takes (fun _ _ => hI.1.takes _) command mishaps) hI.2

end Session

/-! ### The ids of a tree -/

theorem Schema.Akin.maintains_filed {s s' : Schema} (ha : s.Akin s') (hs : s'.Sound) :
    s'.Maintains fun db => ∃ t, s.Filed db t := by
  rintro q db a db' hq ⟨t, hf⟩ h
  obtain ⟨t', hf'⟩ := filed_of_statement hs (ha.filed hf) hq h
  exact ⟨t', (ha.of_common (.refl s)).filed hf'⟩

theorem Handle.every_filed_ensure {h : Handle} {m : Mapping} {s : Store}
    (hm : m.validate = .ok h.schema) (hcovered : h.schema.IsCovered)
    (he : h.ensure {} = (.ok (), s)) : s.Every fun db => ∃ t, h.schema.Filed db t := by
  obtain ⟨-, db, supply, rfl, hst, -⟩ := Handle.stands_ensure hm hcovered he
  refine ⟨⟨_, hst.keeps.found, hst.keeps.declares, .nil⟩, ?_⟩
  rintro w ⟨⟩

namespace Session

theorem every_filed_run {s : Schema} {session : Session}
    (hstart : session.store.Every fun db => ∃ t, s.Filed db t)
    {steps : List (Handle × Command × Mishaps)} (hsteps : ∀ x ∈ steps, s.Opens x.1) :
    (session.run steps).2.store.Every fun db => ∃ t, s.Filed db t :=
  every_run hstart fun x hx => (hsteps x hx).akin.maintains_filed (hsteps x hx).sound

/-- After any run through handles on the trees of an installed table, refusals and transactions
included, the ids of each tree are different. -/
theorem nodup_ids_run {g h : Handle} {m : Mapping} {start : Store}
    (hm : m.validate = .ok g.schema) (he : g.ensure {} = (.ok (), start))
    {steps : List (Handle × Command × Mishaps)} (hsteps : ∀ x ∈ steps, g.schema.Opens x.1)
    (ho : g.schema.Opens h) :
    ∃ records,
      h.schema.records ((run ⟨start, []⟩ steps).2.store.view h.connection) = .ok records ∧
        (records.map (·.id.value)).Nodup := by
  have hcovered : g.schema.IsCovered := by
    simpa only [Schema.IsCovered, ho.akin.fields] using ho.sound.covered
  have hstart : Store.Every (fun db => ∃ t, g.schema.Filed db t) (Session.mk start []).store :=
    Handle.every_filed_ensure hm hcovered he
  have hevery := every_filed_run hstart hsteps
  obtain ⟨t, hf⟩ := hevery.view h.connection
  have hown := ho.akin.filed hf
  exact ⟨_, Schema.records_of_table? hown.found, hown.nodup_ids⟩

end Session

end NestedSet
