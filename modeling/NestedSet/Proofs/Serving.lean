import Mathlib
import NestedSet.Proofs.Effects

/-!
# Ledgers kept by a database

A database keeps a ledger if the table of the tree holds its nodes and the ids
come from where the ledger has it. Every statement that is not refused means
on the database what it means on the ledger, and leaves the rows of other
partitions alone.
-/

set_option autoImplicit false

namespace NestedSet

theorem perm_filter_of_perm_ok {α : Type} {l : List α} {read : α → Except Refusal Node}
    {nodes : List Node} (h : (l.map read).Perm (nodes.map .ok)) {q : α → Bool} {p : Node → Bool}
    (hq : ∀ a ∈ l, ∀ n, read a = .ok n → q a = p n) :
    ((l.filter q).map read).Perm ((nodes.filter p).map .ok) := by
  have hread : (l.filter q).map read = (l.map read).filter fun e => e.toOption.any p := by
    rw [List.filter_map]
    congr 1
    apply List.filter_congr
    intro a ha
    obtain ⟨n, -, hn⟩ := List.mem_map.1 (h.mem_iff.1 (List.mem_map_of_mem ha))
    simp [hq a ha n hn.symm, ← hn, Except.toOption]
  have hnodes : (nodes.filter p).map (Except.ok (ε := Refusal)) =
      (nodes.map .ok).filter fun e => e.toOption.any p := by
    rw [List.filter_map]
    congr 1
  rw [hread, hnodes]
  exact h.filter _

/-! ### What a database keeps of a ledger -/

namespace Schema

/-- The rows in scope hold the given nodes, in whatever order. -/
def Reads (s : Schema) (t : Table) (nodes : List Node) : Prop :=
  ((s.scope t).map (s.shown t)).Perm (nodes.map .ok)

structure Beside (s : Schema) (t t' : Table) : Prop where
  name : t'.name = t.name
  id : t'.id = t.id
  columns : t'.columns = t.columns
  rows : (t'.rows.filter fun r => !s.inScope t r).Perm (t.rows.filter fun r => !s.inScope t r)

variable {s : Schema} {t t' t'' : Table}

theorem Spares.beside (h : s.Spares t t') : s.Beside t t' :=
  ⟨h.name, h.id, h.columns, .of_eq h.rows⟩

theorem Beside.refl (s : Schema) (t : Table) : s.Beside t t := ⟨rfl, rfl, rfl, .refl _⟩

theorem Beside.inScope (h : s.Beside t t') : s.inScope t' = s.inScope t := by
  funext r
  simp only [Schema.inScope, Table.cell_congr h.id h.columns]

theorem Beside.trans (h : s.Beside t t') (h' : s.Beside t' t'') : s.Beside t t'' := by
  refine ⟨h'.name.trans h.name, h'.id.trans h.id, h'.columns.trans h.columns, ?_⟩
  have hrows := h'.rows
  rw [h.inScope] at hrows
  exact hrows.trans h.rows

theorem Beside.declares (h : s.Beside t t') (hd : s.Declares t) : s.Declares t' :=
  ⟨h.id.trans hd.id, h.columns.trans hd.columns⟩

namespace Reads

variable {nodes : List Node}

theorem mem_iff (h : s.Reads t nodes) {n : Node} :
    n ∈ nodes ↔ ∃ r ∈ s.scope t, s.shown t r = .ok n := by
  have hmem := List.Perm.mem_iff h (a := .ok n)
  simpa using hmem.symm

theorem exists_shown (h : s.Reads t nodes) {r : Row} (hr : r ∈ s.scope t) :
    ∃ n ∈ nodes, s.shown t r = .ok n := by
  have hmem := (List.Perm.mem_iff h).1 (List.mem_map_of_mem hr)
  obtain ⟨n, hn, he⟩ := List.mem_map.1 hmem
  exact ⟨n, hn, he.symm⟩

theorem length_eq (h : s.Reads t nodes) : (s.scope t).length = nodes.length := by
  simpa using List.Perm.length_eq h

theorem map (h : s.Reads t nodes) {g : Row → Row} {f : Node → Node}
    (hrows : s.scope t' = (s.scope t).map g)
    (hshown : ∀ r ∈ s.scope t, ∀ n, s.shown t r = .ok n → s.shown t' (g r) = .ok (f n)) :
    s.Reads t' (nodes.map f) := by
  have hmap : ((s.scope t).map g).map (s.shown t') =
      ((s.scope t).map (s.shown t)).map (Except.map f) := by
    rw [List.map_map, List.map_map]
    apply List.map_congr_left
    intro r hr
    obtain ⟨n, -, hn⟩ := h.exists_shown hr
    simp only [Function.comp_apply, hshown r hr n hn, hn]
    rfl
  have hnodes : (nodes.map f).map (Except.ok (ε := Refusal)) =
      (nodes.map .ok).map (Except.map f) := by
    simp [Function.comp_def, Except.map]
  rw [Reads, hrows, hmap, hnodes]
  exact List.Perm.map _ h

theorem countP_eq (h : s.Reads t nodes) {q : Row → Bool} {p : Node → Bool}
    (hq : ∀ r ∈ s.scope t, ∀ n, s.shown t r = .ok n → q r = p n) :
    (s.scope t).countP q = nodes.countP p := by
  rw [List.countP_eq_length_filter, List.countP_eq_length_filter]
  simpa using (perm_filter_of_perm_ok h hq).length_eq

end Reads

end Schema

/-- Whether the ids of a tree come from where a supply has it. -/
def Supply.Kept (s : Schema) (db : Database) (t : Table) : Supply → Prop
  | unknown => True
  | counted last =>
    s.ids = .autoIncrement ∧ t.counter = some last ∧ 0 ≤ last ∧ ∀ r ∈ t.rows, r.id ≤ last
  | sequence last =>
    ∃ name q, s.ids = .sequence name ∧ db.table? name = some q ∧ Sequence.Declared q ∧
      Sequence.value? q s.table.name = .ok last ∧ (last = none → t.rows = [])

/-- The database keeps a ledger in a table of its own. -/
structure Keeps (s : Schema) (db : Database) (t : Table) (l : Ledger) : Prop where
  found : db.table? s.table = some t
  declares : s.Declares t
  ids : (t.rows.map (·.id)).Nodup
  reads : s.Reads t l.nodes
  supply : l.supply.Kept s db t

/-! ### Questions -/

namespace Keeps

variable {s : Schema} {db db' : Database} {t : Table} {l : Ledger}

theorem records_eq (hk : Keeps s db t l) : s.records db = .ok (s.recordsOf t) :=
  Schema.records_of_table? hk.found

theorem installed (hk : Keeps s db t l) : s.Installed db := ⟨t, hk.found, hk.declares⟩

theorem find (hk : Keeps s db t l) {id : Int} {found : Option Node}
    (h : s.element? id db = .ok found) (n : Node) :
    found = some n ↔ n ∈ l.nodes ∧ n.id = id := by
  rw [Schema.element?_eq hk.found hk.declares, Schema.rows_of_table? hk.found] at h
  rw [hk.reads.mem_iff]
  cases hfind : (s.scope t).find? fun r => decide (r.id = id) with
  | none =>
    rw [hfind] at h
    cases h
    constructor
    · intro hn
      cases hn
    · rintro ⟨⟨r, hr, hshown⟩, hid⟩
      have hne := List.find?_eq_none.1 hfind r hr
      rw [Schema.id_of_shown hk.declares hshown] at hid
      simp [hid] at hne
  | some r =>
    rw [hfind] at h
    have hr := List.mem_of_find?_eq_some hfind
    have hrid : r.id = id := by simpa using List.find?_some hfind
    obtain ⟨m, -, hm⟩ := hk.reads.exists_shown hr
    have hfound : found = some m := by
      change some <$> s.shown t r = .ok found at h
      rw [hm] at h
      exact (Except.ok.inj h).symm
    rw [hfound]
    constructor
    · rintro ⟨⟩
      exact ⟨⟨r, hr, hm⟩, (Schema.id_of_shown hk.declares hm).trans hrid⟩
    · rintro ⟨⟨r', hr', hshown⟩, hid⟩
      have hrid' := (Schema.id_of_shown hk.declares hshown).symm.trans hid
      have hsame := List.inj_on_of_nodup_map hk.ids (List.mem_of_mem_filter hr)
        (List.mem_of_mem_filter hr') (hrid.trans hrid'.symm)
      rw [hsame, hshown] at hm
      exact congrArg some (Except.ok.inj hm).symm

theorem length_le (hk : Keeps s db t l) : l.nodes.length ≤ Table.capacity := by
  rw [← hk.reads.length_eq]
  exact (List.length_filter_le ..).trans t.fits

theorem count (hk : Keeps s db t l) {size : Nat} (h : s.size db = .ok size) :
    size = l.nodes.length := by
  rw [Schema.size, hk.records_eq] at h
  obtain rfl := Except.ok.inj h
  rw [Schema.recordsOf, List.length_map]
  exact hk.reads.length_eq

theorem counter (hk : Keeps s db t l) {sequence : Identifier} (hids : s.ids = .sequence sequence)
    {value : Option Int} (h : s.counter? sequence db = .ok value) {last : Option Int}
    (hl : l.supply = .sequence last) : value = last := by
  have hkept := hk.supply
  rw [hl] at hkept
  obtain ⟨name, q, hname, hq, -, hvalue, -⟩ := hkept
  obtain rfl : sequence = name := IdSource.sequence.inj (hids.symm.trans hname)
  rw [Schema.counter?, Database.table, hq] at h
  exact Except.ok.inj (h.symm.trans hvalue)

theorem largestId (hk : Keeps s db t l) {id : Int} (h : s.largestId db = .ok id)
    (hl : l.supply = .sequence none) : id = 0 := by
  have hkept := hk.supply
  rw [hl] at hkept
  obtain ⟨name, q, -, -, -, -, hempty⟩ := hkept
  rw [Schema.largestId, Database.table, hk.found] at h
  simp only [bind, Except.bind, hempty rfl, List.map_nil, List.foldl_nil] at h
  exact (Except.ok.inj h).symm

/-! ### Changes of the tree's table -/

theorem setTable (hk : Keeps s db t l) {t' : Table} {l' : Ledger} (hb : s.Beside t t')
    (hids : (t'.rows.map (·.id)).Nodup) (hreads : s.Reads t' l'.nodes)
    (hsupply : l'.supply.Kept s (db.setTable t') t') : Keeps s (db.setTable t') t' l' :=
  ⟨Database.table?_setTable_self hk.found hb.name, hb.declares hk.declares, hids, hreads, hsupply⟩

theorem table?_setTable (hs : s.Sound) (hk : Keeps s db t l) {t' : Table} (hb : s.Beside t t')
    {sequence : Identifier} (hids : s.ids = .sequence sequence) :
    (db.setTable t').table? sequence = db.table? sequence :=
  Database.table?_setTable_apart hk.found hb.name (hs.sequence sequence hids)

theorem supply_setTable (hs : s.Sound) (hk : Keeps s db t l) {t' : Table} (hb : s.Beside t t')
    (hcounter : t'.counter = t.counter)
    (hrows : ∀ r' ∈ t'.rows, ∃ r ∈ t.rows, r'.id = r.id) :
    l.supply.Kept s (db.setTable t') t' := by
  have hkept := hk.supply
  cases hl : l.supply with
  | unknown => trivial
  | counted last =>
    rw [hl] at hkept
    obtain ⟨hids, hlast, hzero, hle⟩ := hkept
    refine ⟨hids, hcounter.trans hlast, hzero, ?_⟩
    intro r' hr'
    obtain ⟨r, hr, he⟩ := hrows r' hr'
    rw [he]
    exact hle r hr
  | sequence last =>
    rw [hl] at hkept
    obtain ⟨name, q, hids, hq, hdeclared, hvalue, hempty⟩ := hkept
    refine ⟨name, q, hids, (hk.table?_setTable hs hb hids).trans hq, hdeclared, hvalue, ?_⟩
    intro hnone
    apply List.eq_nil_iff_forall_not_mem.2
    intro r' hr'
    obtain ⟨r, hr, -⟩ := hrows r' hr'
    rw [hempty hnone] at hr
    cases hr

theorem supply_inserted (hs : s.Sound) (hk : Keeps s db t l) {t' : Table} (hb : s.Beside t t')
    {r : Row} (hcounter : t'.counter = t.counter.map (max r.id))
    (hrows : ∀ r' ∈ t'.rows, r' = r ∨ r' ∈ t.rows) :
    (l.supply.inserted r.id).Kept s (db.setTable t') t' := by
  have hkept := hk.supply
  cases hl : l.supply with
  | unknown => trivial
  | counted last =>
    rw [hl] at hkept
    obtain ⟨hids, hlast, hzero, hle⟩ := hkept
    refine ⟨hids, ?_, le_max_of_le_left hzero, ?_⟩
    · simp [hcounter, hlast, max_comm]
    · intro r' hr'
      rcases hrows r' hr' with rfl | hr'
      · exact le_max_right _ _
      · exact le_max_of_le_left (hle r' hr')
  | sequence last =>
    rw [hl] at hkept
    obtain ⟨name, q, hids, hq, hdeclared, hvalue, -⟩ := hkept
    cases last with
    | none => trivial
    | some last =>
      exact ⟨name, q, hids, (hk.table?_setTable hs hb hids).trans hq, hdeclared, hvalue, by simp⟩

theorem revise (hs : s.Sound) (hk : Keeps s db t l) {c : Change}
    (hc : (Request.revise c).Proper s) (hreach : (Request.revise c).InReach s l) {rows : Nat}
    (h : s.revise (c.revision s) db = .ok (rows, db')) :
    rows = l.nodes.countP c.picks ∧
      ∃ t', Keeps s db' t' { l with nodes := l.nodes.map (c.onNode s) } ∧ s.Beside t t' := by
  obtain ⟨t₀, hfound, -, hrows, rfl⟩ := Schema.revise_ok hs hk.installed hc h
  obtain rfl : t = t₀ := Option.some.inj (hk.found.symm.trans hfound)
  have hselects : ∀ r ∈ s.scope t, ∀ n, s.shown t r = .ok n →
      (c.revision s).selects (s.record t r) = c.picks n :=
    fun r _ n hn => c.selects_eq_picks (Record.outlines_of_node hn)
  have hframe := Schema.frame_revise hs hk.declares hc
  have hbeside := (Schema.spares_revise hs hk.declares hc).beside
  refine ⟨?_, _, hk.setTable hbeside ?_ ?_ (hk.supply_setTable hs hbeside rfl ?_), hbeside⟩
  · rw [hrows, ← hk.reads.countP_eq hselects, Schema.scope, List.countP_filter]
    exact List.countP_congr fun r _ => by simp [Change.onRows, Revision.through, and_comm]
  · rw [Table.rows_mapRows, List.map_map]
    exact (List.map_congr_left fun r _ => (hframe r).1) ▸ hk.ids
  · refine hk.reads.map (Schema.scope_revise hs hk.declares hc) ?_
    intro r hr n hn
    unfold Table.revise Change.onNode
    rw [c.selects_onRows (List.mem_filter.1 hr).2 (Record.outlines_of_node hn)]
    split
    · rename_i hpicks
      exact Change.node_revised hs hk.declares hc hn
        (hreach.revised (hk.reads.mem_iff.2 ⟨r, hr, hn⟩) hpicks)
    · exact hn
  · intro r' hr'
    obtain ⟨r, hr, rfl⟩ := List.mem_map.1 hr'
    exact ⟨r, hr, (hframe r).1⟩

theorem delete (hs : s.Sound) (hk : Keeps s db t l) {range : Bounds} {rows : Nat}
    (h : s.deleteRange range db = .ok (rows, db')) :
    rows = l.nodes.countP (Request.covers range) ∧
      ∃ t', Keeps s db' t' { l with nodes := l.nodes.filter fun n => !Request.covers range n } ∧
        s.Beside t t' := by
  obtain ⟨t₀, hfound, rfl, rfl⟩ := Schema.deleteRange_ok h
  obtain rfl : t = t₀ := Option.some.inj (hk.found.symm.trans hfound)
  have hcovers : ∀ r ∈ s.scope t, ∀ n, s.shown t r = .ok n →
      s.deletes t range r = Request.covers range n := by
    intro r hr n hn
    have hleft := (Record.node_eq_ok_iff.1 hn).2.1
    rw [Schema.deletes, Cell.atLeast_of_integer hleft, Cell.atMost_of_integer hleft,
      (List.mem_filter.1 hr).2, Bool.true_and, Request.covers]
  have hbeside := (Schema.spares_delete s t range).beside
  have hkept := perm_filter_of_perm_ok hk.reads (q := fun r => !s.deletes t range r)
    (p := fun n => !Request.covers range n) fun r hr n hn => by rw [hcovers r hr n hn]
  rw [Schema.scope, List.filter_comm] at hkept
  refine ⟨?_, _, hk.setTable hbeside ((List.filter_sublist.map _).nodup hk.ids) hkept
    (hk.supply_setTable hs hbeside rfl ?_), hbeside⟩
  · rw [← hk.reads.countP_eq hcovers, Schema.scope, List.countP_filter]
    apply List.countP_congr
    intro r _
    cases hin : s.inScope t r <;> simp [Schema.deletes, hin]
  · intro r hr
    exact ⟨r, (List.mem_filter.1 hr).1, rfl⟩

theorem insert (hs : s.Sound) (hk : Keeps s db t l) {id : Option Int} {bounds : Bounds}
    {parent : Option Int} {values : List (Field × Value)} (hv : ∀ x ∈ values, x.1 ∈ s.fields)
    {new : Int} (h : s.insertNode id bounds parent values db = .ok (new, db')) :
    (∀ i, id = some i → new = i) ∧
      (id = none → ∀ last, l.supply = .counted last → new = last + 1) ∧
      ∃ t', Keeps s db' t'
        ⟨⟨new, bounds.left, bounds.right, parent, s.newPayload values⟩ :: l.nodes,
          l.supply.inserted new⟩ ∧ s.Beside t t' := by
  obtain ⟨t₀, hfound, -, hgiven, hfresh, hobjection, hroom, rfl⟩ :=
    Schema.insertNode_ok hs hk.installed hv h
  obtain rfl : t = t₀ := Option.some.inj (hk.found.symm.trans hfound)
  have hperm := Table.perm_insertById (t.newRow new (s.entry id bounds parent values)) t.rows
  have hin := Schema.inScope_newRow id bounds parent values hs hk.declares new
  have hshown := Schema.node_newRow id bounds parent hs hk.declares hv new
  have hbeside := (Schema.spares_withRow hs hk.declares id bounds parent values new hroom).beside
  have hnext : id = none → ∀ last, l.supply = .counted last → new = last + 1 := by
    intro hid last hl
    have hkept := hk.supply
    rw [hl] at hkept
    exact Table.freshId_of_counter hkept.2.1 hkept.2.2.1 hkept.2.2.2 (hfresh hid)
  have hsupply := hk.supply_inserted hs hbeside
    (r := t.newRow new (s.entry id bounds parent values)) rfl
    fun r hr => List.mem_cons.1 (hperm.mem_iff.1 hr)
  refine ⟨hgiven, hnext, _, hk.setTable hbeside ?_ ?_ hsupply, hbeside⟩
  · change ((Table.insertById _ t.rows).map (·.id)).Nodup
    rw [(hperm.map _).nodup_iff, List.map_cons, List.nodup_cons]
    refine ⟨?_, hk.ids⟩
    intro hmem
    obtain ⟨o, ho, he⟩ := List.mem_map.1 hmem
    exact Table.fresh_of_objection? hobjection o ho he
  · have hscope := hperm.filter (s.inScope t)
    rw [List.filter_cons_of_pos hin] at hscope
    apply (hscope.map (s.shown t)).trans
    rw [List.map_cons, List.map_cons]
    exact hshown ▸ hk.reads.cons _

/-! ### The statements of the edits -/

theorem setCounter (hs : s.Sound) (hk : Keeps s db t l) {sequence : Identifier}
    (hids : s.ids = .sequence sequence) {value : Int}
    (h : s.setCounter sequence value db = .ok ((), db')) :
    Keeps s db' t { l with supply := l.supply.drawn value } := by
  refine ⟨(Schema.setCounter_ok hs hids h).1.trans hk.found, hk.declares, hk.ids, hk.reads, ?_⟩
  obtain ⟨q, q', hq, hset, rfl⟩ := Database.onTable_ok h
  have hkept := hk.supply
  change (l.supply.drawn value).Kept s _ t
  cases hl : l.supply with
  | unknown => trivial
  | counted last =>
    rw [hl] at hkept
    exact hkept
  | sequence last =>
    rw [hl] at hkept
    obtain ⟨name, q₀, hids', hq₀, hdeclared, -, -⟩ := hkept
    obtain rfl : sequence = name := IdSource.sequence.inj (hids.symm.trans hids')
    obtain rfl : q = q₀ := Option.some.inj (hq.symm.trans hq₀)
    obtain ⟨hdeclared', hvalue⟩ := Sequence.value?_set hdeclared hset
    exact ⟨sequence, q', hids, Database.table?_setTable_self hq (Sequence.name_of_set hset),
      hdeclared', hvalue, by simp⟩

/-- A request that is not refused means on the database what it means on the ledger. -/
theorem serve (hs : s.Sound) (hk : Keeps s db t l) {q : Request} (hq : q.Proper s)
    (hreach : q.InReach s l) {a : q.Reply} (h : q.statement s db = .ok (a, db')) :
    ∃ t' l', q.Meaning s l a l' ∧ Keeps s db' t' l' ∧ s.Beside t t' := by
  cases q with
  | find id =>
    obtain ⟨hanswer, rfl⟩ := Request.ask_ok h
    exact ⟨t, l, ⟨rfl, hk.find hanswer⟩, hk, .refl s t⟩
  | count =>
    obtain ⟨hanswer, rfl⟩ := Request.ask_ok h
    exact ⟨t, l, ⟨rfl, hk.count hanswer⟩, hk, .refl s t⟩
  | counter sequence =>
    obtain ⟨hanswer, rfl⟩ := Request.ask_ok h
    exact ⟨t, l, ⟨rfl, fun last hl => hk.counter hq hanswer hl⟩, hk, .refl s t⟩
  | largestId =>
    obtain ⟨hanswer, rfl⟩ := Request.ask_ok h
    exact ⟨t, l, ⟨rfl, hk.largestId hanswer⟩, hk, .refl s t⟩
  | setCounter sequence value => exact ⟨t, _, rfl, hk.setCounter hs hq h, .refl s t⟩
  | insert id bounds parent values =>
    obtain ⟨hgiven, hnext, t', hk', hb⟩ := hk.insert hs hq h
    exact ⟨t', _, ⟨hgiven, hnext, rfl⟩, hk', hb⟩
  | delete range =>
    obtain ⟨hrows, t', hk', hb⟩ := hk.delete hs h
    exact ⟨t', _, ⟨hrows, rfl⟩, hk', hb⟩
  | revise c =>
    obtain ⟨hrows, t', hk', hb⟩ := hk.revise hs hq hreach h
    exact ⟨t', _, ⟨hrows, rfl⟩, hk', hb⟩

end Keeps

end NestedSet
