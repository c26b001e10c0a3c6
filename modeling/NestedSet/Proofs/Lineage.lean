import Mathlib
import NestedSet.Proofs.Rotation

/-!
# Rows and what became of them

Moving and removing write nothing but markers and parents, into rows that are
there. So whatever a row holds besides stays, and the rows of a tree are known
from the rows that it began with and from the nodes that it has come to.
-/

set_option autoImplicit false

namespace NestedSet

open Relation (ReflTransGen)

/-! ### Entries -/

namespace Entries

variable {α : Type}

theorem mem_keys_put {name key : String} {v : α} {xs : Entries α} :
    name ∈ (put key v xs).map (·.1) ↔ name = key ∨ name ∈ xs.map (·.1) := by
  induction xs with
  | nil => simp [put]
  | cons e rest ih =>
    by_cases h : e.1 = key
    · simp [put, h]
    · simp only [put, h, if_false, List.map_cons, List.mem_cons, ih]
      tauto

theorem put_put (key : String) (v w : α) (xs : Entries α) :
    put key w (put key v xs) = put key w xs := by
  induction xs with
  | nil => simp [put]
  | cons e rest ih => by_cases h : e.1 = key <;> simp [put, h, ih]

theorem put_comm {a b : String} (hne : a ≠ b) {xs : Entries α}
    (h : a ∈ xs.map (·.1) ∨ b ∈ xs.map (·.1)) (v w : α) :
    put a v (put b w xs) = put b w (put a v xs) := by
  induction xs with
  | nil => simp at h
  | cons e rest ih =>
    by_cases ha : e.1 = a
    · simp [put, ha, hne]
    · by_cases hb : e.1 = b
      · simp [put, hb, hne.symm]
      · have hrest : a ∈ rest.map (·.1) ∨ b ∈ rest.map (·.1) := by
          simpa [Ne.symm ha, Ne.symm hb] using h
        simp [put, ha, hb, ih hrest]

theorem put_of_lookup {key : String} {v : α} {xs : Entries α} (h : xs.lookup key = some v) :
    put key v xs = xs := by
  induction xs with
  | nil => cases h
  | cons e rest ih =>
    obtain ⟨name, w⟩ := e
    by_cases hn : name = key
    · subst hn
      rw [List.lookup_cons_self] at h
      cases h
      simp [put]
    · have hbeq : (key == name) = false := by simpa using Ne.symm hn
      rw [List.lookup_cons, hbeq] at h
      simp [put, hn, ih h]

/-- What others hold under some names is put under these. -/
def adopt (source : Entries α) : List String → Entries α → Entries α
  | [], xs => xs
  | name :: rest, xs =>
    adopt source rest (match source.lookup name with
      | some v => put name v xs
      | none => xs)

theorem adopt_self (names : List String) (xs : Entries α) : adopt xs names xs = xs := by
  induction names with
  | nil => rfl
  | cons name rest ih =>
    rw [adopt]
    cases h : xs.lookup name with
    | none => exact ih
    | some v =>
      simp only [put_of_lookup h]
      exact ih

theorem adopt_congr {names : List String} {source source' : Entries α}
    (h : ∀ name ∈ names, source.lookup name = source'.lookup name) (xs : Entries α) :
    adopt source names xs = adopt source' names xs := by
  induction names generalizing xs with
  | nil => rfl
  | cons name rest ih =>
    rw [List.forall_mem_cons] at h
    rw [adopt, adopt, h.1, ih h.2]

/-- What is adopted anyway makes no difference, as long as at most one of the names is new. -/
theorem adopt_put {names : List String} {source xs : Entries α} {key : String}
    (hkey : key ∈ names) (hsource : (source.lookup key).isSome)
    (hone : ∀ name ∈ names, name ≠ key → name ∈ xs.map (·.1) ∨ key ∈ xs.map (·.1)) (v : α) :
    adopt source names (put key v xs) = adopt source names xs := by
  induction names generalizing xs with
  | nil => cases hkey
  | cons name rest ih =>
    rw [List.forall_mem_cons] at hone
    rw [adopt, adopt]
    by_cases hname : name = key
    · subst hname
      obtain ⟨w, hw⟩ := Option.isSome_iff_exists.1 hsource
      simp only [hw, put_put]
    · have hrest : key ∈ rest := (List.mem_cons.1 hkey).resolve_left (Ne.symm hname)
      cases source.lookup name with
      | none => exact ih hrest hone.2
      | some w =>
        simp only [put_comm hname (hone.1 hname) w v]
        refine ih hrest ?_
        intro other hother hne
        rw [mem_keys_put, mem_keys_put]
        exact (hone.2 other hother hne).imp .inr .inr

end Entries

/-! ### Rows -/

namespace Row

variable {names : List String} {r a b : Row}

def keys (r : Row) : List String := r.cells.map (·.1)

/-- One row is the other with an integer written under one of some names. -/
def Marked (names : List String) (a b : Row) : Prop :=
  ∃ key ∈ names, ∃ n : Int, b = a.put key (.integer n)

theorem lookup_eq_none_iff {key : String} : r.cells.lookup key = none ↔ key ∉ r.keys := by
  rw [List.lookup_eq_none_iff, keys, List.mem_map]
  simp only [bne_iff_ne]
  constructor
  · rintro h ⟨e, he, rfl⟩
    exact h e he rfl
  · rintro h e he rfl
    exact h ⟨e, he, rfl⟩

theorem id_of_marked (h : ReflTransGen (Marked names) r a) : a.id = r.id := by
  induction h with
  | refl => rfl
  | tail _ hab ih =>
    obtain ⟨key, -, n, rfl⟩ := hab
    exact ih

theorem keys_of_marked (h : ReflTransGen (Marked names) r a) : ∀ key ∈ r.keys, key ∈ a.keys := by
  induction h with
  | refl => exact fun _ h => h
  | tail _ hab ih =>
    obtain ⟨key, -, n, rfl⟩ := hab
    exact fun name hname => Entries.mem_keys_put.2 (.inr (ih name hname))

theorem get_of_marked (h : ReflTransGen (Marked names) r a) {key : String} (hr : key ∉ r.keys) :
    key ∉ a.keys ∨ a.get key ≠ .null := by
  induction h with
  | refl => exact .inl hr
  | tail _ hab ih =>
    obtain ⟨name, -, n, rfl⟩ := hab
    by_cases hname : key = name
    · subst hname
      rw [get_put_self]
      exact .inr (by simp)
    · rw [get_put_of_ne hname]
      exact ih.imp_left fun hkey hmem => (Entries.mem_keys_put.1 hmem).elim hname hkey

/-- A row is made from the one that it comes from by putting its own marks there. -/
theorem adopt_of_marked
    (hone : ∀ k ∈ names, ∀ l ∈ names, k ≠ l → k ∈ r.keys ∨ l ∈ r.keys)
    (h : ReflTransGen (Marked names) r a) {c : Row} (hc : ∀ key ∈ a.keys, key ∈ c.keys) :
    Entries.adopt c.cells names a.cells = Entries.adopt c.cells names r.cells := by
  induction h with
  | refl => rfl
  | @tail b a hrb hba ih =>
    obtain ⟨key, hkey, n, rfl⟩ := hba
    rw [← ih fun name hname => hc name (Entries.mem_keys_put.2 (.inr hname))]
    refine Entries.adopt_put hkey ?_ ?_ _
    · rw [Option.isSome_iff_ne_none, ne_eq, lookup_eq_none_iff, not_not]
      exact hc key (Entries.mem_keys_put.2 (.inl rfl))
    · intro name hname hne
      exact (hone name hname key hkey hne).imp (keys_of_marked hrb name) (keys_of_marked hrb key)

theorem eq_of_marked
    (hone : ∀ k ∈ names, ∀ l ∈ names, k ≠ l → k ∈ r.keys ∨ l ∈ r.keys)
    (ha : ReflTransGen (Marked names) r a) (hb : ReflTransGen (Marked names) r b)
    (h : ∀ key ∈ names, a.get key = b.get key) : a = b := by
  -- a key that only one of the rows has would hold something there and nothing in the other
  have hgained : ∀ {a b : Row}, ReflTransGen (Marked names) r a →
      ReflTransGen (Marked names) r b → ∀ key, a.get key = b.get key →
      a.cells.lookup key = none → b.cells.lookup key = none := by
    intro a b ha hb key hget hnone
    have hra : key ∉ r.keys := fun hr => lookup_eq_none_iff.1 hnone (keys_of_marked ha key hr)
    rw [lookup_eq_none_iff]
    refine (get_of_marked hb hra).resolve_right ?_
    rw [not_not, ← hget, get, hnone]
    rfl
  have hlookup : ∀ key ∈ names, a.cells.lookup key = b.cells.lookup key := by
    intro key hkey
    have hget := h key hkey
    cases hla : a.cells.lookup key with
    | none => rw [hgained ha hb key hget hla]
    | some v =>
      cases hlb : b.cells.lookup key with
      | none => cases (hgained hb ha key hget.symm hlb).symm.trans hla
      | some w => simpa [get, hla, hlb] using hget
  have hcells : a.cells = b.cells := by
    rw [← Entries.adopt_self names a.cells, ← Entries.adopt_self names b.cells,
      adopt_of_marked hone ha fun _ hk => hk, adopt_of_marked hone hb fun _ hk => hk,
      Entries.adopt_congr hlookup]
  obtain ⟨id, cells⟩ := a
  obtain ⟨id', cells'⟩ := b
  have hid : id = id' := (id_of_marked ha).trans (id_of_marked hb).symm
  rw [hid, show cells = cells' from hcells]

end Row

/-! ### Tables -/

namespace Schema

variable {s : Schema} {t t₁ t₂ : Table} {db db' : Database} {l : Ledger}

def marks (s : Schema) : List String := [s.left.key, s.right.key, s.parent.key]

/-- What is left of a table whose tree was only moved about and cut back: in the place of some of
the rows in scope, these with other markers and parents, which are nodes as well. -/
structure Descends (s : Schema) (t t' : Table) : Prop extends s.Spares t t' where
  definition : t'.definition = t.definition
  counter : t'.counter = t.counter
  ordered : t'.rows.Pairwise fun a b => a.id < b.id
  within : ∀ r' ∈ t'.rows, s.inScope t r' = true →
    (∃ r ∈ s.scope t, ReflTransGen (Row.Marked s.marks) r r') ∧ ∃ n, s.shown t r' = .ok n

theorem assign_integer (hs : s.Sound) (hd : s.Declares t) {c : Column}
    (hc : c ∈ Table.columnsOf s) (hnumeric : c.affinity = .numeric) (n : Int) (r : Row) :
    t.assign c.name (.integer n) r = r.put c.name.key (.integer n) := by
  rw [Table.assign, hs.isId_column hd hc, Table.hold, hs.column? hd hc]
  simp [Column.hold, hnumeric, Affinity.convert_numeric_integer]

theorem marked_revised (hs : s.Sound) (hd : s.Declares t) {c : Change}
    (hc : c.isStructural = true) {r : Row} {n : Node} (h : (s.record t r).Outlines n)
    (hn : c.isOfMarkers = true →
      IsStorable (c.revised s n).left ∧ IsStorable (c.revised s n).right) :
    ReflTransGen (Row.Marked s.marks) r (t.revised (c.onRows s t) r) := by
  obtain ⟨-, hleft, hright⟩ := h
  -- what is added up is read from the row as it was, not from the one that is being written
  let puts (x : Identifier × (Record → Value)) : Prop :=
    ∀ r', Row.Marked s.marks r' (t.assign x.1 (x.2 (s.record t r)) r')
  have hassign : ∀ {c : Column}, c ∈ Table.columnsOf s → c.affinity = .numeric →
      c.name.key ∈ s.marks → ∀ {v : Record → Value} {n : Int},
        v (s.record t r) = .integer n → puts (c.name, v) := by
    intro c hc hnumeric hmark v n hv r'
    simp only [hv]
    exact ⟨_, hmark, n, assign_integer hs hd hc hnumeric n r'⟩
  have hl : ∀ {k : Int}, IsStorable (n.left + k) → puts (Revision.addLeft s k) := fun {k} hk =>
    hassign s.left_mem rfl (by simp [marks])
      ((congrArg (·.plus k) hleft).trans (Value.plus_integer hk))
  have hr : ∀ {k : Int}, IsStorable (n.right + k) → puts (Revision.addRight s k) := fun {k} hk =>
    hassign s.right_mem rfl (by simp [marks])
      ((congrArg (·.plus k) hright).trans (Value.plus_integer hk))
  have hsets : ∀ x ∈ (c.revision s).sets, puts x := by
    cases c with
    | pushLefts pivot width => exact List.forall_mem_singleton.2 (hl (hn rfl).1)
    | pushRights pivot width => exact List.forall_mem_singleton.2 (hr (hn rfl).2)
    | reparent id parent =>
      exact List.forall_mem_singleton.2 (hassign s.parent_mem rfl (by simp [marks]) rfl)
    | shiftInside subtree offset =>
      exact List.forall_mem_cons.2
        ⟨hl (hn rfl).1, List.forall_mem_singleton.2 (hr (hn rfl).2)⟩
    | pullFollowing gap =>
      exact List.forall_mem_cons.2
        ⟨hl (hn rfl).1, List.forall_mem_singleton.2 (hr (hn rfl).2)⟩
    | pullEnclosing gap => exact List.forall_mem_singleton.2 (hr (hn rfl).2)
    | payload id values => cases hc
  rw [Change.revised_onRows]
  generalize (c.revision s).sets = sets at hsets
  suffices ∀ r', ReflTransGen (Row.Marked s.marks) r'
      (sets.foldl (fun new x => t.assign x.1 (x.2 (s.record t r)) new) r') from this r
  induction sets with
  | nil => exact fun _ => .refl
  | cons x rest ih =>
    rw [List.forall_mem_cons] at hsets
    exact fun r' => (ih hsets.2 _).head (hsets.1 r')

theorem get_of_shown (hs : s.Sound) (hd : s.Declares t) {r : Row} {n : Node}
    (h : s.shown t r = .ok n) :
    r.get s.left.key = .integer n.left ∧ r.get s.right.key = .integer n.right ∧
      r.get s.parent.key = (n.parent.map Value.integer).getD .null := by
  obtain ⟨-, -, -, hparent, -⟩ := Record.node_eq_ok_iff.1 h
  obtain ⟨hleft, hright⟩ := get_of_outlines hs hd (Record.outlines_of_node h)
  exact ⟨hleft, hright, (value_cell hs hd s.parent_mem r).symm.trans hparent⟩

theorem eq_of_marked (hs : s.Sound) (hd : s.Declares t) {r a b : Row} {n : Node}
    (h : (s.record t r).Outlines n) (ha : ReflTransGen (Row.Marked s.marks) r a)
    (hb : ReflTransGen (Row.Marked s.marks) r b) (hget : ∀ key ∈ s.marks, a.get key = b.get key) :
    a = b := by
  have hkey : ∀ {key : String} {n : Int}, r.get key = .integer n → key ∈ r.keys := by
    intro key n hget
    by_contra hmissing
    rw [Row.get, Row.lookup_eq_none_iff.2 hmissing] at hget
    cases hget
  obtain ⟨hleft, hright⟩ := (get_of_outlines hs hd h).imp hkey hkey
  refine Row.eq_of_marked ?_ ha hb hget
  simp only [marks, List.mem_cons, List.not_mem_nil, or_false]
  rintro k (rfl | rfl | rfl) l (rfl | rfl | rfl) hne <;> simp_all

theorem get_congr (hs : s.Sound) (hd : s.Declares t) {a b : Row} {n : Node}
    (ha : s.shown t a = .ok n) (hb : s.shown t b = .ok n) :
    ∀ key ∈ s.marks, a.get key = b.get key := by
  obtain ⟨hleft, hright, hparent⟩ := get_of_shown hs hd ha
  obtain ⟨hleft', hright', hparent'⟩ := get_of_shown hs hd hb
  simp only [marks, List.forall_mem_cons, List.not_mem_nil, false_imp_iff, implies_true, and_true]
  exact ⟨hleft.trans hleft'.symm, hright.trans hright'.symm, hparent.trans hparent'.symm⟩

namespace Descends

theorem refl (hordered : t.rows.Pairwise fun a b => a.id < b.id) {nodes : List Node}
    (h : s.Reads t nodes) : s.Descends t t := by
  refine ⟨.refl s t, rfl, rfl, hordered, ?_⟩
  intro r hr hin
  have hscope : r ∈ s.scope t := List.mem_filter.2 ⟨hr, hin⟩
  obtain ⟨n, -, hn⟩ := h.exists_shown hscope
  exact ⟨⟨r, hscope, .refl⟩, n, hn⟩

theorem record_eq (h : s.Descends t t₁) : s.record t₁ = s.record t := by
  funext r
  simp only [record, Table.cell_congr h.id h.columns]

theorem shown_eq (h : s.Descends t t₁) : s.shown t₁ = s.shown t := by
  funext r
  rw [shown, h.record_eq, shown]

theorem inScope_eq (h : s.Descends t t₁) : s.inScope t₁ = s.inScope t :=
  h.toSpares.beside.inScope

theorem spares_trans (h : s.Descends t t₁) (h' : s.Spares t₁ t₂) : s.Spares t t₂ := by
  refine ⟨h'.name.trans h.name, h'.id.trans h.id, h'.columns.trans h.columns, ?_⟩
  have hrows := h'.rows
  rw [h.inScope_eq] at hrows
  exact hrows.trans h.rows

theorem revise (hs : s.Sound) (h : s.Descends t t₁) (hk : Keeps s db t₁ l) {c : Change}
    (hc : c.isStructural = true) (hreach : (Request.revise c).InReach s l) :
    s.Descends t (t₁.mapRows (t₁.revise (c.onRows s t₁))) := by
  have hd := hk.declares
  have hproper : (Request.revise c).Proper s := Change.proper_of_isStructural hc
  have hframe := frame_revise hs hd hproper
  refine ⟨h.spares_trans (spares_revise hs hd hproper), h.definition, h.counter, ?_, ?_⟩
  · rw [Table.rows_mapRows, List.pairwise_map]
    refine h.ordered.imp ?_
    intro a b hab
    rwa [(hframe a).1, (hframe b).1]
  · intro r' hr' hin
    obtain ⟨r, hr, rfl⟩ := List.mem_map.1 hr'
    rw [← h.inScope_eq, (hframe r).2] at hin
    obtain ⟨⟨r₀, hr₀, hmarked⟩, -⟩ := h.within r hr (h.inScope_eq ▸ hin)
    obtain ⟨n, hmem, hn⟩ := hk.reads.exists_shown (List.mem_filter.2 ⟨hr, hin⟩)
    have houtlines := Record.outlines_of_node hn
    rw [← h.shown_eq, Table.revise]
    split
    · rename_i hselects
      rw [c.selects_onRows hin houtlines] at hselects
      have hstorable := hreach.revised hmem hselects
      exact ⟨⟨r₀, hr₀, hmarked.trans (marked_revised hs hd hc houtlines hstorable)⟩,
        _, Change.node_revised hs hd hproper hn hstorable⟩
    · exact ⟨⟨r₀, hr₀, hmarked⟩, n, hn⟩

theorem delete (h : s.Descends t t₁) (range : Bounds) :
    s.Descends t (t₁.filterRows fun r => !s.deletes t₁ range r) := by
  refine ⟨h.spares_trans (spares_delete s t₁ range), h.definition, h.counter,
    h.ordered.filter _, ?_⟩
  intro r hr
  exact h.within r (List.mem_filter.1 hr).1

theorem mem_of_reads (h : s.Descends t t₁) (h' : s.Descends t t₂) (hstart : s.Descends t t)
    (hs : s.Sound) (hd : s.Declares t) {nodes : List Node} (hreads : s.Reads t₁ nodes)
    (hreads' : s.Reads t₂ nodes) {a : Row} (ha : a ∈ t₁.rows)
    (hin : s.inScope t a = true) : a ∈ t₂.rows := by
  obtain ⟨⟨r, hr, hra⟩, n, hn⟩ := h.within a ha hin
  have hmem : n ∈ nodes :=
    hreads.mem_iff.2 ⟨a, List.mem_filter.2 ⟨ha, h.inScope_eq ▸ hin⟩, h.shown_eq ▸ hn⟩
  obtain ⟨b, hb, hbn⟩ := hreads'.mem_iff.1 hmem
  rw [h'.shown_eq] at hbn
  obtain ⟨hb, hbin⟩ := List.mem_filter.1 hb
  obtain ⟨⟨r', hr', hrb⟩, -⟩ := h'.within b hb (h'.inScope_eq ▸ hbin)
  have hab : a.id = b.id := (id_of_shown hd hn).symm.trans (id_of_shown hd hbn)
  have hsame : r = r' := by
    have hids : (t.rows.map (·.id)).Nodup :=
      List.pairwise_map.2 (hstart.ordered.imp Int.ne_of_lt)
    refine List.inj_on_of_nodup_map hids (List.mem_filter.1 hr).1 (List.mem_filter.1 hr').1 ?_
    rw [← Row.id_of_marked hra, ← Row.id_of_marked hrb, hab]
  subst hsame
  obtain ⟨-, m, hm⟩ := hstart.within r (List.mem_filter.1 hr).1 (List.mem_filter.1 hr).2
  rwa [eq_of_marked hs hd (Record.outlines_of_node hm) hra hrb (get_congr hs hd hn hbn)]

/-- What is left of a table is known from the nodes that are read from it. -/
theorem eq_of_reads (h : s.Descends t t₁) (h' : s.Descends t t₂) (hstart : s.Descends t t)
    (hs : s.Sound) (hd : s.Declares t) {nodes : List Node} (hreads : s.Reads t₁ nodes)
    (hreads' : s.Reads t₂ nodes) : t₁ = t₂ := by
  have hbeside : ∀ r, s.inScope t r = false → (r ∈ t₁.rows ↔ r ∈ t₂.rows) := by
    intro r hout
    have hmem : ∀ {rows : List Row}, r ∈ rows ↔ r ∈ rows.filter fun r => !s.inScope t r := by
      simp [hout]
    rw [hmem, h.rows, ← h'.rows, ← hmem]
  have : Std.Antisymm fun a b : Row => a.id < b.id := ⟨fun _ _ hab hba => absurd hab hba.not_gt⟩
  have : Std.Irrefl fun a b : Row => a.id < b.id := ⟨fun _ => lt_irrefl _⟩
  have hrows : t₁.rows = t₂.rows := by
    refine h.ordered.eq_of_mem_iff h'.ordered ?_
    intro r
    cases hin : s.inScope t r with
    | false => exact hbeside r hin
    | true =>
      exact ⟨fun hr => h.mem_of_reads h' hstart hs hd hreads hreads' hr hin,
        fun hr => h'.mem_of_reads h hstart hs hd hreads' hreads hr hin⟩
  cases t₁
  cases t₂
  simp only [Table.mk.injEq]
  exact ⟨h.name.trans h'.name.symm, h.definition.trans h'.definition.symm, h.id.trans h'.id.symm,
    h.columns.trans h'.columns.symm, h.counter.trans h'.counter.symm, hrows⟩

theorem of_statement (hs : s.Sound) (h : s.Descends t t₁) (hk : Keeps s db t₁ l) {q : Request}
    (hq : q.bringsNothing = true) (hreach : q.InReach s l) {a : q.Reply}
    (hstatement : q.statement s db = .ok (a, db')) :
    ∃ t₂, s.Descends t t₂ ∧ db'.table? s.table = some t₂ := by
  have hset : ∀ t₂, s.Descends t t₂ → t₂.name = t₁.name → db' = db.setTable t₂ →
      ∃ t₂, s.Descends t t₂ ∧ db'.table? s.table = some t₂ := by
    rintro t₂ h₂ hname rfl
    exact ⟨t₂, h₂, Database.table?_setTable_self hk.found hname⟩
  cases q with
  | find id =>
    obtain ⟨-, rfl⟩ := Request.ask_ok hstatement
    exact ⟨t₁, h, hk.found⟩
  | delete range =>
    obtain ⟨t', hfound, -, hdb⟩ := deleteRange_ok hstatement
    cases hk.found.symm.trans hfound
    exact hset _ (h.delete range) rfl hdb
  | revise c =>
    obtain ⟨t', hfound, -, -, hdb⟩ := revise_ok hs ⟨_, hk.found, hk.declares⟩
      (Change.proper_of_isStructural hq) hstatement
    cases hk.found.symm.trans hfound
    exact hset _ (h.revise hs hk hq hreach) rfl hdb
  | _ => cases hq

end Descends

end Schema

/-! ### Statements and edits -/

theorem Procedure.exists_descends {α : Type} {s : Schema} (hs : s.Sound) {p : Procedure α}
    (hp : p.Issues fun q => q.bringsNothing = true) {start t : Table} {l : Ledger}
    {post : Except TreeError α → Ledger → Prop} (hy : p.Yields s l post) {d d' : Desk}
    (hk : Keeps s d.database t l) (h : s.Descends start t) {answer : Except TreeError α}
    (hresult : p.result s d = (answer, d')) :
    ∃ t', s.Descends start t' ∧ d'.database.table? s.table = some t' := by
  induction p generalizing d t l with
  | done answer =>
    cases hresult
    exact ⟨t, h, hk.found⟩
  | issue q next ih =>
    unfold result Desk.serve at hresult
    cases ho : d.outcome s q with
    | error refusal =>
      simp only [ho] at hresult
      cases hresult
      exact ⟨t, h, hk.found⟩
    | ok x =>
      obtain ⟨a, db⟩ := x
      simp only [ho] at hresult
      have hstatement := Desk.statement_of_outcome ho
      obtain ⟨t₁, l₁, hm, hk₁, -⟩ := hk.serve hs hy.1.1 hy.1.2 hstatement
      obtain ⟨t₂, h₂, hfound⟩ := h.of_statement hs hk hp.1 hy.1.2 hstatement
      cases hk₁.found.symm.trans hfound
      exact ih a (hp.2 a) (hy.2 a l₁ hm) hk₁ h₂ hresult
  | report event next ih => exact ih (d := d.report event) hp hy hk h hresult

/-- An edit that is refused no statement leaves what its procedure has made of what the handle saw,
or, where it fails, what was there. -/
theorem Session.exists_result_of_own {s : Session} {h : Handle} {e : Edit} {mishaps : Mishaps}
    (hown : ∀ step refusal, (s.edit h e mishaps).answer ≠ .error (.backend step refusal)) :
    ∃ d d', d.database = s.store.view h.connection ∧
      (e.procedure h.schema).result h.schema d = ((s.edit h e mishaps).answer, d') ∧
      ((s.edit h e mishaps).store.view h.connection = d'.database ∨
        (∃ error, (s.edit h e mishaps).answer = .error error) ∧
          (s.edit h e mishaps).store.view h.connection = s.store.view h.connection) := by
  by_cases hheld : s.isHeld h = true
  · have hedit : s.edit h e mishaps = h.editWithin s.store e mishaps := by
      rw [edit, if_pos hheld]
    rw [hedit] at hown ⊢
    unfold Handle.editWithin Store.run at hown ⊢
    rcases hr : (e.procedure h.schema).result h.schema ⟨s.store.view h.connection, mishaps, [],
      !s.store.mayWrite h.connection⟩ with ⟨answer, d'⟩
    refine ⟨⟨s.store.view h.connection, mishaps, [], !s.store.mayWrite h.connection⟩, d', rfl, ?_,
      .inl ?_⟩
    · rw [hr]
      cases answer <;> rfl
    · rw [hr] at hown
      cases answer with
      | ok a => exact Store.view_replace _ _ _
      | error error =>
        have hopen : error.endsTransaction = false := by
          cases error with
          | backend step refusal => exact absurd rfl (hown step refusal)
          | _ => rfl
        simp only [hopen]
        exact Store.view_replace _ _ _
  · obtain ⟨step, refusal, -, herror⟩ | ⟨d, d', hd, -, hr, hview⟩ := s.edit_cases h e mishaps
    · exact absurd herror (hown step refusal)
    · refine ⟨d, d', hd, hr, ?_⟩
      cases ha : (s.edit h e mishaps).answer with
      | ok a => exact .inl (hview a ha)
      | error error =>
        have hedit : s.edit h e mishaps = h.edit s.store e mishaps := by
          rw [edit, if_neg hheld]
        rw [hedit] at ha ⊢
        exact .inr ⟨⟨error, rfl⟩, by rw [Handle.store_of_error ha]⟩

/-! ### Trees in what is left of a table -/

/-- A tree stands in what is left of the table that it began in. -/
def Remains (s : Schema) (start : Table) (db : Database) (f : Forest Item) : Prop :=
  ∃ t supply, s.Descends start t ∧ Stands s db t f supply

namespace Remains

variable {s : Schema} {start : Table} {db db' : Database} {f g : Forest Item}

theorem declares (h : Remains s start db f) : s.Declares start := by
  obtain ⟨t, supply, ht, hst⟩ := h
  exact ⟨ht.id.symm.trans hst.keeps.declares.id, ht.columns.symm.trans hst.keeps.declares.columns⟩

theorem nodup_ids (h : Remains s start db f) : f.ids.Nodup := by
  obtain ⟨t, supply, -, hst⟩ := h
  exact hst.nodup_ids

theorem table?_eq (hs : s.Sound) (hstart : s.Descends start start)
    (h : Remains s start db f) (h' : Remains s start db' g) (hfg : f.nodes = g.nodes) :
    db.table? s.table = db'.table? s.table := by
  have hd := h.declares
  obtain ⟨t, supply, ht, hst⟩ := h
  obtain ⟨t', supply', ht', hst'⟩ := h'
  have hreads' := hst'.keeps.reads
  simp only [← hfg] at hreads'
  rw [hst.keeps.found, hst'.keeps.found, ht.eq_of_reads ht' hstart hs hd hst.keeps.reads hreads']

end Remains

theorem Remains.nodes_eq {h : Handle} {store : Store} {start : Table} {f : Forest Item}
    (hr : Remains h.schema start (store.view h.connection) f) : h.nodes store = .ok f.nodes := by
  obtain ⟨t, supply, -, hst⟩ := hr
  exact hst.nodes_eq

theorem Handle.exists_remains {h : Handle} {store : Store} {t : Table}
    (hf : h.schema.Filed (store.view h.connection) t) (hc : h.read store Reading.check = .ok []) :
    h.schema.Descends t t ∧ ∃ f, Remains h.schema t (store.view h.connection) f := by
  obtain ⟨f, hst⟩ := Handle.exists_stands hf hc
  have hstart := Schema.Descends.refl hf.ordered hst.keeps.reads
  exact ⟨hstart, f, t, _, hstart, hst⟩

/-- An edit that brings nothing and is refused no statement answers what it answers on the tree,
and the tree that it makes stands in what it leaves of the table. -/
theorem Session.remains_of_edit {s : Session} {h : Handle} {start : Table} {f : Forest Item}
    (hs : h.schema.Sound) (hr : Remains h.schema start (s.store.view h.connection) f) {e : Edit}
    (he : e.BringsNothing h.schema) {mishaps : Mishaps}
    (hown : ∀ step refusal, (s.edit h e mishaps).answer ≠ .error (.backend step refusal)) :
    ∃ new, (s.edit h e mishaps).answer = (e.onForest h.schema new f).map (·.1) ∧
      Remains h.schema start ((s.edit h e mishaps).store.view h.connection)
        (e.grown h.schema new f) := by
  obtain ⟨t, supply, ht, hst⟩ := hr
  obtain ⟨d, d', hdb, hresult, hview⟩ := exists_result_of_own hown
  rw [← hdb] at hst
  obtain ⟨t', -, ⟨step, refusal, hrefused⟩ | ⟨new, -, hanswer, hst'⟩⟩ :=
    Edit.result_of_stands hs hst e hresult
  · exact absurd hrefused (hown step refusal)
  refine ⟨new, hanswer, ?_⟩
  obtain hview | ⟨⟨error, herror⟩, hview⟩ := hview
  · obtain ⟨t₁, ht₁, hfound⟩ :=
      Procedure.exists_descends hs he (hst.yields e) hst.keeps ht hresult
    cases hst'.keeps.found.symm.trans hfound
    rw [hview]
    exact ⟨t', _, ht₁, hst'⟩
  · have hsame : e.grown h.schema new f = f := by
      rw [herror] at hanswer
      unfold Edit.grown
      cases ho : e.onForest h.schema new f with
      | error _ => rfl
      | ok x =>
        rw [ho] at hanswer
        cases hanswer
    rw [hview, ← hdb, hsame]
    exact ⟨t, supply, ht, hst⟩

theorem filed_branch : ∃ t, Stands plainHandle.schema branchStore.committed t branch .unknown ∧
    plainHandle.schema.Filed (branchStore.view plainHandle.connection) t := by
  obtain ⟨t, hst⟩ := stands_branch
  refine ⟨t, hst, hst.keeps.found, hst.keeps.declares, ?_⟩
  cases hst.keeps.found
  decide

end NestedSet
