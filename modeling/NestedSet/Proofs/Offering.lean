import Mathlib
import NestedSet.Proofs.Agreement

/-!
# The next id

An addition is the only edit that looks beyond its own tree: the id of the new
row comes from the whole table or from a sequence. On databases that agree on
one tree and offer the same id, every edit of the tree answers the same and
leaves the same tree.
-/

set_option autoImplicit false

namespace NestedSet

/-! ### Drawing an id -/

namespace Schema

def lastDrawn (s : Schema) (sequence : Identifier) (db : Database) : Except Refusal Int := do
  match ← s.counter? sequence db with
  | some value => return value
  | none => s.largestId db

def Numbers (s : Schema) (db : Database) (id : Int) : Prop :=
  ∃ t, db.table? s.table = some t ∧ t.freshId = .ok id

/-- The id that the next node of a tree will get. -/
def Offers (s : Schema) (db : Database) (id : Int) : Prop :=
  match s.ids with
  | .autoIncrement => s.Numbers db id
  | .sequence _ => ∃ db', (Editing.drawId s.ids).Ends s db (.ok (some id)) db'

def idsTaken (s : Schema) (db : Database) : List Int :=
  ((db.table? s.table).map fun t => t.rows.map (·.id)).getD []

variable {s : Schema} {calm : Prop} {db db' db₁ db₂ : Database} {t t' : Table}

theorem idsTaken_of_table? (h : db.table? s.table = some t) :
    s.idsTaken db = t.rows.map (·.id) := by
  rw [idsTaken, h]
  rfl

end Schema

namespace Editing

open Procedure

variable {s : Schema} {db db' : Database} {sequence : Identifier}

theorem ends_lastDrawn {answer : Except TreeError Int} :
    (lastDrawn sequence).Ends s db answer db' ↔
      ∃ last, s.lastDrawn sequence db = .ok last ∧ answer = .ok last ∧ db' = db := by
  constructor
  · intro h
    obtain ⟨found, db₁, hfound, hrest⟩ | ⟨e, herror, -⟩ := ends_bind.1 h
    swap
    · exact absurd herror (not_ends_error (smooth_request _))
    obtain ⟨_, hstatement, ⟨⟩⟩ := ends_request.1 hfound
    obtain ⟨hanswer, rfl⟩ := Request.ask_ok hstatement
    cases found with
    | some value =>
      obtain ⟨rfl, rfl⟩ := ends_pure.1 hrest
      refine ⟨value, ?_, rfl, rfl⟩
      rw [Schema.lastDrawn, hanswer]
      rfl
    | none =>
      obtain ⟨(last : Int), hstatement', rfl⟩ := ends_request.1 hrest
      obtain ⟨hlargest, rfl⟩ := Request.ask_ok hstatement'
      refine ⟨last, ?_, rfl, rfl⟩
      rw [Schema.lastDrawn, hanswer]
      exact hlargest
  · rintro ⟨last, hlast, rfl, rfl⟩
    obtain ⟨found, hfound, hlast⟩ := exists_of_bind_ok hlast
    have hasked := Request.ask_of_ok hfound
    refine ends_bind.2 (.inl ⟨found, db', ends_request.2 ⟨found, hasked, rfl⟩, ?_⟩)
    cases found with
    | some value =>
      cases hlast
      exact ends_pure.2 ⟨rfl, rfl⟩
    | none =>
      exact ends_request.2 ⟨last, Request.ask_of_ok hlast, rfl⟩

theorem ends_drawId_sequence {answer : Except TreeError (Option Int)} :
    (drawId (.sequence sequence)).Ends s db answer db' ↔
      ∃ last, s.lastDrawn sequence db = .ok last ∧
        s.setCounter sequence (last + 1) db = .ok ((), db') ∧ answer = .ok (some (last + 1)) := by
  constructor
  · intro h
    obtain ⟨last, db₁, hlast, hrest⟩ | ⟨e, herror, -⟩ := ends_bind.1 h
    swap
    · obtain ⟨last, -, ⟨⟩, -⟩ := ends_lastDrawn.1 herror
    obtain ⟨_, hdrawn, ⟨⟩, rfl⟩ := ends_lastDrawn.1 hlast
    obtain ⟨_, db₂, hset, hanswer⟩ | ⟨e, herror, -⟩ := ends_bind.1 hrest
    swap
    · exact absurd herror (not_ends_error (smooth_request _))
    obtain ⟨_, hstatement, -⟩ := ends_request.1 hset
    obtain ⟨rfl, rfl⟩ := ends_pure.1 hanswer
    exact ⟨last, hdrawn, hstatement, rfl⟩
  · rintro ⟨last, hdrawn, hset, rfl⟩
    exact ends_bind.2 (.inl ⟨last, db, ends_lastDrawn.2 ⟨last, hdrawn, rfl, rfl⟩,
      ends_bind.2 (.inl ⟨(), db', ends_request.2 ⟨(), hset, rfl⟩, ends_pure.2 ⟨rfl, rfl⟩⟩)⟩)

end Editing

namespace Schema

variable {s : Schema} {calm : Prop} {db db' db₁ db₂ : Database} {t t' : Table}

theorem table?_sequence (hs : s.Sound) {sequence : Identifier} (hids : s.ids = .sequence sequence)
    (h : db.table? s.table = some t) (hname : t'.name = t.name) :
    (db.setTable t').table? sequence = db.table? sequence :=
  Database.table?_setTable_apart h hname (hs.sequence sequence hids)

theorem largestId_congr (h : db.table? s.table = some t) (h' : db'.table? s.table = some t')
    (hd : s.Declares t) (hd' : s.Declares t')
    (hrows : t'.rows.map (·.id) = t.rows.map (·.id)) : s.largestId db' = s.largestId db := by
  have hcells : ∀ {t : Table}, s.Declares t →
      (t.rows.map fun r => (t.cell s.id r).value) = (t.rows.map (·.id)).map Value.integer := by
    intro t hd
    rw [List.map_map]
    apply List.map_congr_left
    intro r _
    rw [Table.cell_of_isId (isId_id hd)]
    rfl
  simp only [largestId, Database.table, h, h', bind, Except.bind, hcells hd, hcells hd', hrows]

theorem offers_setTable (hs : s.Sound) (h : db.table? s.table = some t) (hspares : s.Spares t t')
    (hd : s.Declares t) (hcounter : t'.counter = t.counter)
    (hrows : t'.rows.map (·.id) = t.rows.map (·.id)) {id : Int} :
    s.Offers (db.setTable t') id ↔ s.Offers db id := by
  have h' := Database.table?_setTable_self h hspares.name
  unfold Offers
  cases hids : s.ids with
  | autoIncrement =>
    have hfresh : t'.freshId = t.freshId := by
      rw [Table.freshId, Table.freshId, Table.largestId?, Table.largestId?, hcounter, hrows]
    simp only [Numbers, h, h', Option.some.injEq, exists_eq_left', hfresh]
  | sequence sequence =>
    have hsequence := table?_sequence hs hids h hspares.name
    have hlast : s.lastDrawn sequence (db.setTable t') = s.lastDrawn sequence db := by
      have hcount : s.counter? sequence (db.setTable t') = s.counter? sequence db := by
        simp only [counter?, Database.table, hsequence]
      simp only [lastDrawn, hcount, largestId_congr h h' hd (hspares.declares hd) hrows]
    have hset : ∀ value, (∃ db'', s.setCounter sequence value (db.setTable t') = .ok ((), db'')) ↔
        ∃ db'', s.setCounter sequence value db = .ok ((), db'') := by
      intro value
      have hsame : ∀ db : Database, (∃ db'', s.setCounter sequence value db = .ok ((), db'')) ↔
          ∃ q q', db.table? sequence = some q ∧
            Sequence.set q db.faults s.table.name value = .ok ((), q') := by
        intro db
        constructor
        · rintro ⟨db'', hset⟩
          obtain ⟨q, q', hq, hset, -⟩ := Database.onTable_ok hset
          exact ⟨q, q', hq, hset⟩
        · rintro ⟨q, q', hq, hset⟩
          refine ⟨db.setTable q', ?_⟩
          simp [setCounter, Database.onTable, Database.table, hq, hset, bind, Except.bind, pure,
            Except.pure]
      rw [hsame, hsame, hsequence]
      rfl
    constructor
    · rintro ⟨db'', hdrawn⟩
      obtain ⟨last, hl, hc, hid⟩ := Editing.ends_drawId_sequence.1 hdrawn
      obtain ⟨db₁, hc⟩ := (hset _).1 ⟨db'', hc⟩
      exact ⟨db₁, Editing.ends_drawId_sequence.2 ⟨last, hlast ▸ hl, hc, hid⟩⟩
    · rintro ⟨db'', hdrawn⟩
      obtain ⟨last, hl, hc, hid⟩ := Editing.ends_drawId_sequence.1 hdrawn
      obtain ⟨db₁, hc⟩ := (hset _).2 ⟨db'', hc⟩
      exact ⟨db₁, Editing.ends_drawId_sequence.2 ⟨last, hlast.trans hl, hc, hid⟩⟩

theorem offers_revise (hs : s.Sound) (hi : s.Installed db) {c : Change}
    (hc : (Request.revise c).Proper s) {count : Nat}
    (h : s.revise (c.revision s) db = .ok (count, db')) :
    (∀ id, s.Offers db' id ↔ s.Offers db id) ∧ s.idsTaken db' = s.idsTaken db := by
  obtain ⟨t, ht, hd, -, rfl⟩ := revise_ok hs hi hc h
  have hspares := spares_revise hs hd hc
  have hrows : (t.rows.map (t.revise (c.onRows s t))).map (·.id) = t.rows.map (·.id) := by
    rw [List.map_map]
    exact List.map_congr_left fun r _ => (frame_revise hs hd hc r).1
  refine ⟨fun id => offers_setTable hs ht hspares hd rfl hrows, ?_⟩
  rw [idsTaken_of_table? ht, idsTaken_of_table? (Database.table?_setTable_self ht hspares.name)]
  exact hrows

/-! ### Additions -/

/-- The databases agree on the tree, and the second offers the id that the first offers. In calm
the id is free there, and there is room for it. -/
structure AgreeNext (s : Schema) (calm : Prop) (db₁ db₂ : Database) : Prop
    extends s.Agree calm db₁ db₂ where
  next : ∀ id, s.Offers db₁ id → s.Offers db₂ id
  free : calm → ∀ id, s.Offers db₂ id → id ∉ s.idsTaken db₂
  room : calm → (s.idsTaken db₂).length < Table.capacity

structure Drawn (s : Schema) (calm : Prop) (drawn : Except TreeError (Option Int))
    (db₁ db₂ : Database) : Prop extends s.Agree calm db₁ db₂ where
  numbers : drawn = .ok none → ∀ id, s.Numbers db₁ id → s.Numbers db₂ id
  free : ∀ id, drawn = .ok (some id) → calm → id ∉ s.idsTaken db₂
  room : calm → (s.idsTaken db₂).length < Table.capacity

theorem Agree.of_tables {db₁' db₂' : Database} (h : s.Agree calm db₁ db₂)
    (h₁ : db₁'.table? s.table = db₁.table? s.table) (h₂ : db₂'.table? s.table = db₂.table? s.table)
    (hfaults : db₂'.faults = db₂.faults) : s.Agree calm db₁' db₂' := by
  obtain ⟨⟨t₁, hf₁⟩, ⟨t₂, hf₂⟩, hrows, hquiet⟩ := h
  refine ⟨⟨t₁, h₁.trans hf₁.found, hf₁.declares, hf₁.ordered⟩,
    ⟨t₂, h₂.trans hf₂.found, hf₂.declares, hf₂.ordered⟩, ?_, ?_⟩
  · simp only [Schema.rows, h₁, h₂] at hrows ⊢
    exact hrows
  · rw [hfaults]
    exact hquiet

theorem mirrors_next {q : Request}
    (hq : q.Mirrors s calm (s.Agree calm) fun _ => s.Agree calm)
    (hkeeps : ∀ db (a : q.Reply) db', s.Installed db → q.statement s db = .ok (a, db') →
      (∀ id, s.Offers db' id ↔ s.Offers db id) ∧ s.idsTaken db' = s.idsTaken db) :
    q.Mirrors s calm (s.AgreeNext calm) fun _ => s.AgreeNext calm := by
  intro db₁ db₂ a db₁' h hstatement hsecond
  obtain ⟨db₂', hstatement', hagree⟩ := hq h.toAgree hstatement hsecond
  obtain ⟨hoffers, -⟩ := hkeeps db₁ a db₁' h.installed.1 hstatement
  obtain ⟨hoffers', htaken⟩ := hkeeps db₂ a db₂' h.installed.2 hstatement'
  refine ⟨db₂', hstatement', hagree, ?_, ?_, htaken ▸ h.room⟩
  · exact fun id hid => (hoffers' id).2 (h.next id ((hoffers id).1 hid))
  · intro hcalm id hid
    rw [htaken]
    exact h.free hcalm id ((hoffers' id).1 hid)

theorem mirrors_drawId (hs : s.Sound) :
    (Editing.drawId s.ids).Mirrors s calm (s.AgreeNext calm) (s.Drawn calm) := by
  intro db₁ db₂ answer db₁' h hends _
  have hoffers := h.next
  have hfree := h.free
  unfold Offers at hoffers hfree
  cases hids : s.ids with
  | autoIncrement =>
    rw [hids] at hends hoffers
    obtain ⟨rfl, rfl⟩ := hends
    exact ⟨db₂, ⟨rfl, rfl⟩, h.toAgree, fun _ => hoffers, by simp, h.room⟩
  | sequence sequence =>
    rw [hids] at hends hoffers hfree
    obtain ⟨last, -, hset, rfl⟩ := Editing.ends_drawId_sequence.1 hends
    obtain ⟨db₂', hends'⟩ := hoffers (last + 1) ⟨db₁', hends⟩
    obtain ⟨last', -, hset', hlast⟩ := Editing.ends_drawId_sequence.1 hends'
    obtain rfl : last = last' := by simpa using hlast
    have htable := (setCounter_ok hs hids hset).1
    have htable' := (setCounter_ok hs hids hset').1
    have hfaults : db₂'.faults = db₂.faults := by
      obtain ⟨q, q', -, -, rfl⟩ := Database.onTable_ok hset'
      rfl
    have htaken : s.idsTaken db₂' = s.idsTaken db₂ := by rw [idsTaken, idsTaken, htable']
    refine ⟨db₂', hends', h.toAgree.of_tables htable htable' hfaults, by simp, ?_,
      htaken ▸ h.room⟩
    rintro id ⟨⟩ hcalm
    rw [htaken]
    exact hfree hcalm (last + 1) ⟨db₂', hends'⟩

section Insertion

variable {id : Option Int} {bounds : Bounds} {parent : Option Int} {values : List (Field × Value)}

theorem exists_insert (hs : s.Sound) (hunique : ∀ c ∈ Table.columnsOf s, c.unique = false)
    (h : s.Drawn calm (.ok id) db₁ db₂) (hcalm : calm) (hv : ∀ x ∈ values, x.1 ∈ s.fields)
    {new : Int} {db₁' : Database}
    (hinsert : s.insertNode id bounds parent values db₁ = .ok (new, db₁')) :
    ∃ new' db₂', s.insertNode id bounds parent values db₂ = .ok (new', db₂') := by
  obtain ⟨t₁, h₁⟩ := h.first
  obtain ⟨t₂, h₂⟩ := h.second
  obtain ⟨⟨row, db⟩, hrow, -⟩ := exists_of_bind_ok hinsert
  obtain ⟨t, t₁', ht, hrow, -⟩ := Database.onTable_ok hrow
  obtain rfl : t₁ = t := Option.some.inj (h₁.found.symm.trans ht)
  cases hstranger : t₁.stranger? ((s.entry id bounds parent values).map (·.1)) with
  | some column => simp [hstranger] at hrow
  | none =>
    rw [hstranger] at hrow
    have hknown : t₂.stranger? ((s.entry id bounds parent values).map (·.1)) = none := by
      rw [← hstranger, Table.stranger?_congr (h₁.declares.id_eq h₂.declares)
        (h₁.declares.columns_eq h₂.declares)]
    obtain ⟨brought, hbrought, hgiven, hfresh, -, -⟩ := Table.insert_ok hrow
    obtain rfl : id = brought := Except.ok.inj
      ((broughtId_entry (idsApart hs h₁.declares) hv id bounds parent).symm.trans hbrought)
    have hnumbers : id = none → t₂.freshId = .ok row := by
      rintro rfl
      obtain ⟨t, ht, hnext⟩ := h.numbers rfl row ⟨t₁, h₁.found, hfresh rfl⟩
      obtain rfl : t₂ = t := Option.some.inj (h₂.found.symm.trans ht)
      exact hnext
    have hfree : ∀ r ∈ t₂.rows, r.id ≠ row := by
      intro r hr
      cases hid : id with
      | none => exact (Table.lt_freshId (hnumbers hid) r hr).ne
      | some i =>
        have hnot := h.free i (by rw [hid]) hcalm
        rw [idsTaken_of_table? h₂.found] at hnot
        rw [hgiven i hid]
        exact fun he => hnot (List.mem_map.2 ⟨r, hr, he⟩)
    have hplain : ∀ c ∈ t₂.columns, c.unique = false := by
      rw [h₂.declares.columns]
      exact hunique
    have hroom : t₂.rows.length < Table.capacity := by
      simpa [idsTaken_of_table? h₂.found] using h.room hcalm
    obtain ⟨⟨row', t₂'⟩, haccepted⟩ := Table.insert_of_fresh (h₁.declares.id_eq h₂.declares)
      (h₁.declares.columns_eq h₂.declares) hplain hrow
      (fun hnone => hnumbers (Except.ok.inj (hbrought.symm.trans hnone))) hroom hfree
    refine ⟨id.getD row', db₂.setTable t₂', ?_⟩
    simp [insertNode, Database.onTable, Database.table, h₂.found, h.quiet hcalm, hknown,
      haccepted, bind, Except.bind, pure, Except.pure]

theorem mirrors_insert (hs : s.Sound) (hunique : calm → ∀ c ∈ Table.columnsOf s, c.unique = false)
    (hv : ∀ x ∈ values, x.1 ∈ s.fields) :
    (Request.insert id bounds parent values).Mirrors s calm (s.Drawn calm (.ok id))
      fun _ => s.Agree calm := by
  intro db₁ db₂ (new : Int) db₁' h hstatement hsecond
  obtain ⟨t₁, h₁⟩ := h.first
  obtain ⟨t₂, h₂⟩ := h.second
  have hanswered : ∃ (new' : Int) (db₂' : Database),
      s.insertNode id bounds parent values db₂ = .ok (new', db₂') := by
    rcases hsecond with hcalm | hanswered
    · exact exists_insert hs (hunique hcalm) h hcalm hv hstatement
    · exact hanswered
  obtain ⟨new', db₂', hstatement'⟩ := hanswered
  obtain ⟨t, ht, -, hgiven, hfresh, hobjection, hroom, rfl⟩ :=
    insertNode_ok hs h.installed.1 hv hstatement
  obtain rfl : t₁ = t := Option.some.inj (h₁.found.symm.trans ht)
  obtain ⟨t, ht, -, hgiven', hfresh', hobjection', hroom', rfl⟩ :=
    insertNode_ok hs h.installed.2 hv hstatement'
  obtain rfl : t₂ = t := Option.some.inj (h₂.found.symm.trans ht)
  have hsame : new' = new := by
    cases hid : id with
    | some i => exact (hgiven' i hid).trans (hgiven i hid).symm
    | none =>
      obtain ⟨t, ht, hnext⟩ := h.numbers (by rw [hid]) new ⟨t₁, h₁.found, hfresh hid⟩
      obtain rfl : t₂ = t := Option.some.inj (h₂.found.symm.trans ht)
      exact Except.ok.inj ((hfresh' hid).symm.trans hnext)
  subst hsame
  have hscope : ∀ {db : Database} {t : Table} (hroom : t.rows.length < Table.capacity),
      s.Filed db t → s.scope (t.withRow (t.newRow new' (s.entry id bounds parent values)) hroom) =
        Table.insertById (t.newRow new' (s.entry id bounds parent values)) (s.scope t) :=
    fun _ hf => Table.filter_insertById_of_pos
      (inScope_newRow id bounds parent values hs hf.declares new') hf.ordered
  refine ⟨_, hstatement', h.toAgree.setTable h₁ h₂
    (spares_withRow hs h₁.declares id bounds parent values new' hroom)
    (spares_withRow hs h₂.declares id bounds parent values new' hroom')
    (Table.ordered_insertById h₁.ordered (Table.fresh_of_objection? hobjection))
    (Table.ordered_insertById h₂.ordered (Table.fresh_of_objection? hobjection')) ?_⟩
  rw [hscope hroom h₁, hscope hroom' h₂, h.scope_eq h₁ h₂,
    Table.newRow_congr (h₁.declares.columns_eq h₂.declares)]

end Insertion

end Schema

/-! ### Edits -/

namespace Schema

variable {s : Schema} {calm : Prop}

theorem mirrors_add (hs : s.Sound) (hunique : calm → ∀ c ∈ Table.columnsOf s, c.unique = false)
    (payload : Payload) (placement : Placement) :
    (Editing.add s payload placement).Mirrors s calm (s.AgreeNext calm)
      fun _ => s.Agree calm := by
  have hsame : ∀ {db₁ db₂ : Database}, s.AgreeNext calm db₁ db₂ → s.Agree calm db₁ db₂ :=
    AgreeNext.toAgree
  have hquestion : ∀ {q : Request}, q.isQuestion = true →
      (q.Mirrors s calm (s.Agree calm) fun _ => s.Agree calm) →
      q.Mirrors s calm (s.AgreeNext calm) fun _ => s.AgreeNext calm := by
    intro q hq hmirrors
    refine mirrors_next hmirrors ?_
    rintro db a db' - hstatement
    obtain rfl := Request.statement_of_isQuestion hq hstatement
    exact ⟨fun _ => .rfl, rfl⟩
  have hrevise : ∀ {c : Change}, (Request.revise c).Proper s →
      (Request.revise c).Mirrors s calm (s.AgreeNext calm) fun _ => s.AgreeNext calm := by
    intro c hc
    refine mirrors_next (mirrors_revise hs hunique hc) ?_
    exact fun db a db' hi hstatement => offers_revise hs hi hc hstatement
  have hkept : ∀ q : Request, (q.Mirrors s calm (s.AgreeNext calm) fun _ => s.AgreeNext calm) →
      q.Mirrors s calm (s.AgreeNext calm) fun _ => s.AgreeNext calm := fun _ h => h
  apply Procedure.mirrors_bind_lift ?_ fun _ _ _ => hsame
  intro values hvalues
  have hsite := Procedure.mirrors_of_issues (p := Editing.site placement) (Editing.issues_site
    (hquestion rfl (mirrors_count s calm)) fun id => hquestion rfl (mirrors_find s calm id)) hkept
  refine Procedure.mirrors_bind hsite ?_ fun _ _ _ => hsame
  rintro ⟨parent, pivot⟩
  have hroom := Procedure.mirrors_of_issues (p := Editing.makeLeafRoom parent pivot)
    (Editing.issues_makeLeafRoom (hrevise (c := .pushLefts pivot 2) trivial)
      (hrevise (c := .pushRights pivot 2) trivial)) hkept
  refine Procedure.mirrors_bind hroom ?_ fun _ _ _ => hsame
  intro _
  refine Procedure.mirrors_bind (mirrors_drawId hs) ?_ fun _ _ _ h => h.toAgree
  intro id
  have hinsert : (Procedure.request (.insert id (.leafAfter pivot) parent values)).Mirrors s calm
      (s.Drawn calm (.ok id)) fun _ => s.Agree calm :=
    Procedure.mirrors_request (mirrors_insert hs hunique (mem_fields_of_resolve hvalues))
  refine Procedure.mirrors_bind hinsert ?_ fun _ _ _ h => h
  intro (new : Int)
  exact Procedure.mirrors_done (s := s) (.ok new)

end Schema

/-- Every edit of a tree goes the same way on databases that agree on it and on the next id. -/
theorem Edit.mirrors {s : Schema} {calm : Prop} (hs : s.Sound)
    (hunique : calm → ∀ c ∈ Table.columnsOf s, c.unique = false) (e : Edit) :
    (e.procedure s).Mirrors s calm (s.AgreeNext calm) fun _ => s.Agree calm := by
  have hrevise : ∀ c : Change, (Request.revise c).Proper s →
      (Request.revise c).Mirrors s calm (s.Agree calm) fun _ => s.Agree calm :=
    fun c hc => Schema.mirrors_revise hs hunique hc
  have hmarkers : ∀ c : Change, (∀ id values, c ≠ .payload id values) →
      (Request.revise c).Mirrors s calm (s.Agree calm) fun _ => s.Agree calm := by
    intro c hc
    apply hrevise
    cases c with
    | payload id values => exact absurd rfl (hc id values)
    | _ => trivial
  have hfind := Schema.mirrors_find s calm
  have htree : ∀ {p : Procedure Answer},
      (p.Issues fun q => q.Mirrors s calm (s.Agree calm) fun _ => s.Agree calm) →
      p.Mirrors s calm (s.AgreeNext calm) fun _ => s.Agree calm :=
    fun hp _ _ _ _ h => Procedure.mirrors_of_issues hp (fun _ hq => hq) h.toAgree
  cases e with
  | add payload placement =>
    exact Procedure.mirrors_map (Schema.mirrors_add hs hunique payload placement)
  | remove id =>
    exact htree (Procedure.issues_map
      (Editing.issues_remove hfind (Schema.mirrors_delete s calm) hmarkers))
  | move id placement => exact htree (Procedure.issues_map (Editing.issues_move hfind hmarkers))
  | update id payload =>
    exact htree (Procedure.issues_map
      (Editing.issues_update fun _ hv => hrevise _ (Schema.mem_fields_of_resolve hv)))
  | copy id placement => exact htree (Procedure.issues_map (Procedure.issues_throw _))

end NestedSet
