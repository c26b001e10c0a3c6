import Mathlib
import NestedSet.Proofs.Issuing

/-!
# Counters by spelling

A table answers to its name in whatever case, while a sequence keeps a counter
for every spelling. Each spelling begins after the ids that are there and goes
on from its own last one. So one that another has overtaken draws an id that is
taken, and goes on drawing it: none of its nodes is added any more.
-/

set_option autoImplicit false

namespace NestedSet

/-! ### Counters of other names -/

theorem Table.find?_insertById_of_neg {p : Row → Bool} {r : Row} (h : p r = false)
    (rows : List Row) : (insertById r rows).find? p = rows.find? p := by
  rw [← List.head?_filter, ← List.head?_filter, filter_insertById_of_neg h]

namespace Sequence

variable {q q' : Table}

theorem value?_eq (hq : Declared q) (name : String) :
    value? q name =
      match q.rows.find? fun r => (r.get nameColumn.key).equals (.text name) with
      | none => .ok none
      | some r => some <$>
        (⟨valueColumn.name, .numeric, r.get valueColumn.key⟩ : Cell).integer 0 := by
  have hcounters : isCounter q name = fun r => (r.get nameColumn.key).equals (.text name) :=
    funext (isCounter_eq hq name)
  cases hcounter : q.rows.find? fun r => (r.get nameColumn.key).equals (.text name) with
  | none => simp only [value?, hq.stranger?_eq, hcounters, hcounter]
  | some r =>
    simp only [value?, hq.stranger?_eq, hcounters, hcounter,
      Table.cell_of_column? hq.isId_value hq.column?_value]

theorem value?_set_of_ne (hq : Declared q) {faults : List Fault} {name other : String}
    {value : Int} (hne : other ≠ name) (h : set q faults name value = .ok ((), q')) :
    value? q' other = value? q other := by
  have hapart : ∀ v : Value, v.equals (.text other) = true → v.equals (.text name) = false := by
    intro v hv
    rw [Bool.eq_false_iff]
    intro hv'
    have hsame : Value.text other = .text name :=
      (Value.eq_text_of_equals hv).symm.trans (Value.eq_text_of_equals hv')
    exact hne (Value.text.inj hsame)
  rw [value?_eq (value?_set hq h).1, value?_eq hq]
  obtain ⟨id, hinsert⟩ | ⟨table, column, count, -, hupdate⟩ := set_cases h
  · obtain ⟨-, -, -, -, -, hroom, rfl⟩ := Table.insert_ok hinsert
    rw [Table.rows_withRow, Table.find?_insertById_of_neg]
    rw [(get_newRow hq _ name value).1, Bool.eq_false_iff]
    intro hname
    exact hne (Value.text.inj (Value.eq_text_of_equals hname)).symm
  · obtain rfl := eq_of_update_setting hq hupdate
    have hnames : (fun r : Row => (r.get nameColumn.key).equals (.text other)) ∘
        q.revise (setting q name value) =
        fun r => (r.get nameColumn.key).equals (.text other) := by
      funext r
      rw [Function.comp_apply, (get_revise hq name value r).1]
    rw [Table.rows_mapRows, List.find?_map, hnames]
    cases hfind : q.rows.find? fun r => (r.get nameColumn.key).equals (.text other) with
    | none => rfl
    | some r =>
      have hskipped : isCounter q name r = false := by
        rw [isCounter_eq hq]
        have hfound := List.find?_some (p := fun r : Row => (r.get nameColumn.key).equals _) hfind
        exact hapart _ hfound
      have hsame : q.revise (setting q name value) r = r := by
        rw [Table.revise, if_neg]
        simp [setting, hskipped]
      simp only [Option.map_some, hsame]

end Sequence

/-! ### Which counter is where -/

/-- The number that a spelling drew last, from the spellings in the order in which they added
nodes, the latest first. -/
def tally (name : String) : List String → Option Int
  | [] => none
  | latest :: rest => if latest = name then some (rest.length + 1) else tally name rest

/-- Whether another spelling has added a node since the last one of this spelling. -/
def Overtaken (name : String) : List String → Prop
  | [] => False
  | latest :: rest => latest ≠ name ∧ name ∈ rest

instance (name : String) (history : List String) : Decidable (Overtaken name history) :=
  match history with
  | [] => inferInstanceAs (Decidable False)
  | _ :: _ => inferInstanceAs (Decidable (_ ∧ _))

section

variable {name : String} {history : List String}

theorem tally_cons (name : String) (history : List String) :
    (tally · (name :: history)) =
      Function.update (tally · history) name (some (history.length + 1)) := by
  funext other
  by_cases h : other = name
  · rw [h, Function.update_self, tally, if_pos rfl]
  · rw [Function.update_of_ne h, tally, if_neg (Ne.symm h)]

theorem tally_eq_none_iff : tally name history = none ↔ name ∉ history := by
  induction history with
  | nil => simp [tally]
  | cons latest rest ih =>
    rw [tally]
    split_ifs with h
    · simp [h]
    · rw [ih, List.mem_cons, not_or]
      exact ⟨fun hrest => ⟨Ne.symm h, hrest⟩, fun hboth => hboth.2⟩

theorem bounds_of_tally {value : Int} (h : tally name history = some value) :
    1 ≤ value ∧ value ≤ history.length := by
  induction history with
  | nil => cases h
  | cons latest rest ih =>
    rw [tally] at h
    rw [List.length_cons]
    split_ifs at h
    · cases h
      omega
    · have := ih h
      omega

theorem next_of_not_overtaken (h : ¬Overtaken name history) :
    (tally name history).getD history.length = history.length := by
  cases history with
  | nil => rfl
  | cons latest rest =>
    rw [tally]
    split_ifs with hname
    · rfl
    · have hfree : tally name rest = none :=
        tally_eq_none_iff.2 fun hmem => h ⟨hname, hmem⟩
      rw [hfree, Option.getD_none]

theorem not_overtaken_of_forall_eq (h : ∀ other ∈ history, other = name) :
    ¬Overtaken name history := by
  cases history with
  | nil => exact id
  | cons latest rest => exact fun ho => ho.1 (h latest (List.mem_cons_self))

theorem next_of_overtaken (h : Overtaken name history) :
    0 ≤ (tally name history).getD history.length ∧
      (tally name history).getD history.length < history.length := by
  cases history with
  | nil => exact h.elim
  | cons latest rest =>
    obtain ⟨hname, hmem⟩ := h
    have hdrawn : tally name rest ≠ none := mt tally_eq_none_iff.1 (by simpa using hmem)
    obtain ⟨value, hvalue⟩ := Option.ne_none_iff_exists'.1 hdrawn
    have hbounds := bounds_of_tally hvalue
    rw [tally, if_neg hname, hvalue, Option.getD_some, List.length_cons]
    omega

end

/-! ### The table and its sequence -/

theorem Database.table?_congr (db : Database) {name name' : Identifier} (h : name.key = name'.key) :
    db.table? name = db.table? name' := by
  unfold table?
  rw [h]

/-- A schema of a tree in a table, with covered types, that draws its ids from a sequence, by names
that lead to both in whatever case. Its id column, and no other column of its, stands for the ids of
the table. -/
structure Schema.Reaches (table sequence : Identifier) (t₀ : Table) (s : Schema) : Prop where
  table : s.table.key = table.key
  ids : ∃ own, s.ids = .sequence own ∧ own.key = sequence.key
  covered : s.IsCovered
  apart : s.IdsApart t₀

/-- A table whose ids are the numbers from 1, and its sequence with the counters of all names. -/
structure Books (table sequence : Identifier) (t₀ : Table) (size : Nat)
    (counter : String → Option Int) (db : Database) (t q : Table) : Prop where
  found : db.table? table = some t
  id : t.id = t₀.id
  columns : t.columns = t₀.columns
  sequence : db.table? sequence = some q
  declared : Sequence.Declared q
  value : ∀ name, Sequence.value? q name = .ok (counter name)
  ids : ∀ i : Int, i ∈ t.rows.map (·.id) ↔ 1 ≤ i ∧ i ≤ size

namespace Books

variable {table sequence own : Identifier} {t₀ t t' q : Table} {size size' : Nat}
  {counter : String → Option Int} {s : Schema} {db db' : Database}

theorem apart (h : Books table sequence t₀ size counter db t q)
    (hd : s.Reaches table sequence t₀) : s.IdsApart t := by
  have hsame := Table.isId_congr h.id h.columns
  exact ⟨hsame ▸ hd.apart.id, hsame ▸ hd.apart.others⟩

theorem found_by (h : Books table sequence t₀ size counter db t q)
    (hd : s.Reaches table sequence t₀) : db.table? s.table = some t :=
  (db.table?_congr hd.table).trans h.found

theorem setTable (h : Books table sequence t₀ size counter db t q)
    (hne : sequence.key ≠ table.key) (hname : t'.name = t.name) (hid : t'.id = t.id)
    (hcolumns : t'.columns = t.columns)
    (hids : ∀ i : Int, i ∈ t'.rows.map (·.id) ↔ 1 ≤ i ∧ i ≤ size') :
    Books table sequence t₀ size' counter (db.setTable t') t' q :=
  ⟨Database.table?_setTable_self h.found hname, hid.trans h.id, hcolumns.trans h.columns,
    (Database.table?_setTable_apart h.found hname hne).trans h.sequence, h.declared, h.value, hids⟩

theorem of_statement (h : Books table sequence t₀ size counter db t q)
    (hne : sequence.key ≠ table.key) (hd : s.Reaches table sequence t₀) {r : Request}
    (hr : r.isQuestion = true ∨ ∃ c, r = .revise c ∧ r.Proper s) {a : r.Reply}
    (hs : r.statement s db = .ok (a, db')) :
    ∃ t', Books table sequence t₀ size counter db' t' q := by
  rcases hr with hr | ⟨c, rfl, hr⟩
  · rw [Request.statement_of_isQuestion hr hs]
    exact ⟨t, h⟩
  · have hwritten : ∀ t₁, db.table? s.table = some t₁ →
        ∀ column ∈ (c.onRows s t₁).columns, t₁.isId column = false := by
      intro t₁ ht₁ column hcolumn
      obtain rfl : t = t₁ := Option.some.inj ((h.found_by hd).symm.trans ht₁)
      exact (h.apart hd).not_isId (Change.written_onRows hr column hcolumn)
    obtain ⟨t₁, ht₁, -, rfl⟩ := Schema.exists_of_revise hwritten hs
    obtain rfl : t = t₁ := Option.some.inj ((h.found_by hd).symm.trans ht₁)
    have hids : (t.rows.map (t.revise (c.onRows s t))).map (·.id) = t.rows.map (·.id) := by
      rw [List.map_map]
      exact List.map_congr_left fun r _ => Table.id_revise (hwritten t ht₁) r
    exact ⟨_, h.setTable hne rfl rfl rfl fun i => hids ▸ h.ids i⟩

theorem largestId_eq (h : Books table sequence t₀ size counter db t q)
    (hd : s.Reaches table sequence t₀) : s.largestId db = .ok (size : Int) := by
  rw [Schema.largestId_eq (h.found_by hd) (h.apart hd).id, Table.largestId?]
  cases size with
  | zero =>
    have hnone : t.rows.map (·.id) = [] := by
      refine List.eq_nil_iff_forall_not_mem.2 fun i hi => ?_
      have := (h.ids i).1 hi
      omega
    rw [hnone]
    rfl
  | succ n =>
    have hlargest : (t.rows.map (·.id)).max? = some ((n + 1 : Nat) : Int) := by
      rw [List.max?_eq_some_iff]
      exact ⟨(h.ids _).2 (by omega), fun i hi => ((h.ids i).1 hi).2⟩
    rw [hlargest, Option.getD_some]

theorem of_setCounter (h : Books table sequence t₀ size counter db t q)
    (hne : sequence.key ≠ table.key) (hown : own.key = sequence.key) {value : Int}
    (hs : s.setCounter own value db = .ok ((), db')) :
    ∃ q', Books table sequence t₀ size (Function.update counter s.table.name (some value)) db'
      t q' := by
  obtain ⟨q₁, q', hq₁, hset, rfl⟩ := Database.onTable_ok hs
  rw [db.table?_congr hown] at hq₁
  obtain rfl : q = q₁ := Option.some.inj (h.sequence.symm.trans hq₁)
  obtain ⟨hdeclared, hvalue⟩ := Sequence.value?_set h.declared hset
  have hname := Sequence.name_of_set hset
  have hvalues : ∀ name, Sequence.value? q' name =
      .ok (Function.update counter s.table.name (some value) name) := by
    intro name
    by_cases hsame : name = s.table.name
    · rw [hsame, Function.update_self, hvalue]
    · rw [Function.update_of_ne hsame, Sequence.value?_set_of_ne h.declared hsame hset, h.value]
  exact ⟨q', (Database.table?_setTable_apart h.sequence hname hne.symm).trans h.found, h.id,
    h.columns, Database.table?_setTable_self h.sequence hname, hdeclared, hvalues, h.ids⟩

theorem of_insertNode (h : Books table sequence t₀ size counter db t q)
    (hne : sequence.key ≠ table.key) (hd : s.Reaches table sequence t₀) {id : Int}
    {bounds : Bounds} {parent : Option Int} {values : List (Field × Value)}
    (hv : ∀ x ∈ values, x.1 ∈ s.fields) {a : Int}
    (hs : s.insertNode (some id) bounds parent values db = .ok (a, db')) :
    a = id ∧ ¬(1 ≤ id ∧ id ≤ size) ∧
      (id = size + 1 → ∃ t', Books table sequence t₀ (size + 1) counter db' t' q) := by
  obtain ⟨hgiven, -, hobjection, hroom, rfl⟩ :=
    Schema.insertNode_of_idsApart (h.found_by hd) (h.apart hd) hv hs
  obtain rfl := hgiven id rfl
  refine ⟨rfl, ?_, ?_⟩
  · rw [← h.ids, List.mem_map]
    rintro ⟨r, hr, hid⟩
    exact Table.fresh_of_objection? hobjection r hr hid
  · rintro rfl
    refine ⟨_, h.setTable hne rfl rfl rfl fun i => ?_⟩
    have hperm := (Table.perm_insertById
      (t.newRow (size + 1) (s.entry (some (size + 1)) bounds parent values)) t.rows).map (·.id)
    rw [Table.rows_withRow, hperm.mem_iff, List.map_cons, List.mem_cons, h.ids]
    change i = size + 1 ∨ _ ↔ _
    omega

theorem insertNode_ne (hd : s.Reaches table sequence t₀) (ht₀ : t₀.duplicate? = none) {id : Int}
    (h : Books table sequence t₀ size (Function.update counter s.table.name (some id)) db t q)
    (hfree : size < id) {bounds : Bounds} {parent : Option Int} {values : List (Field × Value)}
    (hv : ∀ x ∈ values, x.1 ∈ s.fields) (refused : String) :
    s.insertNode (some id) bounds parent values db ≠ .error (.notUnique refused t₀.id.name) := by
  obtain ⟨own, hids, hown⟩ := hd.ids
  have hbelow : ∀ r ∈ t.rows, r.id < id := by
    intro r hr
    have := (h.ids r.id).1 (List.mem_map_of_mem hr)
    omega
  have hvalue : Sequence.value? q s.table.name = .ok (some id) := by
    rw [h.value, Function.update_self]
  have htallies : Tallies s.table own t₀ db t q id :=
    ⟨h.found_by hd, h.id, h.columns, (db.table?_congr hown).trans h.sequence, h.declared, hvalue,
      fun _ r hr => WithBot.coe_le_coe.2 (hbelow r hr).le⟩
  exact htallies.insertNode_ne ⟨rfl, hids, hd.covered, hd.apart⟩ ht₀ hbelow hv refused

end Books

/-! ### An add -/

section

variable {table sequence own : Identifier} {t₀ : Table} {s : Schema} {induced : Refusal → Prop}
  {size : Nat} {counter : String → Option Int} {history : List String}

def Booked (table sequence : Identifier) (t₀ : Table) (size : Nat) (counter : String → Option Int)
    (db : Database) : Prop :=
  ∃ t q, Books table sequence t₀ size counter db t q

def BesideInsert (e : TreeError) (_ : Database) : Prop := ∀ refusal, e ≠ .backend .insert refusal

/-- What an add makes of a history. A node that it creates has the next number, and its spelling
was not overtaken; a row that is refused for its id belongs to one that was, unless such a failure
was induced. -/
structure Follows (table sequence : Identifier) (t₀ : Table) (induced : Refusal → Prop)
    (name : String) (history : List String) (answer : Except TreeError Answer) (db : Database) :
    Prop where
  created : ∀ a, answer = .ok a → a = .created (history.length + 1) ∧ ¬Overtaken name history ∧
    Booked table sequence t₀ (history.length + 1) (tally · (name :: history)) db
  refused : ∀ refused, answer = .error (.backend .insert (.notUnique refused t₀.id.name)) →
    induced (.notUnique refused t₀.id.name) ∨ Overtaken name history

theorem follows_of_besideInsert {name : String} {e : TreeError} {db : Database}
    (h : BesideInsert e db) : Follows table sequence t₀ induced name history (.error e) db :=
  ⟨by simp, fun _ he => absurd (Except.error.inj he) (h _)⟩

namespace Editing

open Procedure

theorem ensures_booked {α : Type} (hne : sequence.key ≠ table.key)
    (hd : s.Reaches table sequence t₀) {p : Procedure α}
    (hp : p.Issues fun q => q.isQuestion = true ∨ ∃ c, q = .revise c ∧ q.Proper s) (hh : p.Honest) :
    p.Ensures s induced (Booked table sequence t₀ size counter)
      (either (fun _ => Booked table sequence t₀ size counter) BesideInsert) := by
  refine (ensures_of_issues hp hh ?_).imp ?_
  · rintro q db a db' hq ⟨t, q', ht⟩ hs
    obtain ⟨t', ht'⟩ := ht.of_statement hne hd hq hs
    exact ⟨t', q', ht'⟩
  · intro answer db h
    cases answer with
    | ok a => exact h.1
    | error e =>
      rintro refusal rfl
      obtain ⟨q, hq, hstep⟩ := h.2 _ _ rfl
      rcases hq with hq | ⟨c, rfl, -⟩
      · cases q with
        | insert id bounds parent values => cases hq
        | revise c => cases hq
        | _ => cases hstep
      · cases c <;> cases hstep

theorem ensures_lastDrawn_booked (hd : s.Reaches table sequence t₀)
    (hown : own.key = sequence.key) :
    (lastDrawn own).Ensures s induced (Booked table sequence t₀ size counter)
      (either (fun last db => last = (counter s.table.name).getD size ∧
        Booked table sequence t₀ size counter db) BesideInsert) := by
  have hcounter : (request (.counter own)).Ensures s induced
      (Booked table sequence t₀ size counter)
      (either (fun value db => value = counter s.table.name ∧
        Booked table sequence t₀ size counter db) BesideInsert) := by
    apply ensures_request
    · rintro db value db' ⟨t, q, ht⟩ hs
      obtain ⟨hvalue, rfl⟩ := Request.ask_ok hs
      rw [Schema.counter?, Database.table, Database.table?_congr _ hown, ht.sequence] at hvalue
      exact ⟨Except.ok.inj (hvalue.symm.trans (ht.value _)), t, q, ht⟩
    · exact fun db refusal _ _ => by simp [either, BesideInsert, Request.step]
  refine ensures_bind hcounter ?_ fun _ _ h => h
  intro value
  cases value with
  | some value =>
    apply ensures_done
    rintro db ⟨hvalue, hbooked⟩
    exact ⟨by rw [← hvalue, Option.getD_some], hbooked⟩
  | none =>
    apply ensures_request
    · rintro db last db' ⟨hvalue, t, q, ht⟩ hs
      obtain ⟨hlargest, rfl⟩ := Request.ask_ok hs
      rw [ht.largestId_eq hd] at hlargest
      exact ⟨by rw [← hvalue, Option.getD_none, Except.ok.inj hlargest], t, q, ht⟩
    · exact fun db refusal _ _ => by simp [either, BesideInsert, Request.step]

theorem ensures_drawId_booked (hne : sequence.key ≠ table.key) (hd : s.Reaches table sequence t₀)
    (hown : own.key = sequence.key) :
    (drawId (.sequence own)).Ensures s induced (Booked table sequence t₀ size counter)
      (either (fun a db => ∃ id, a = some id ∧ id = (counter s.table.name).getD size + 1 ∧
        Booked table sequence t₀ size (Function.update counter s.table.name (some id)) db)
        BesideInsert) := by
  refine ensures_bind (ensures_lastDrawn_booked hd hown) ?_ fun _ _ h => h
  intro last
  have hset : (request (.setCounter own (last + 1))).Ensures s induced
      (fun db => last = (counter s.table.name).getD size ∧
        Booked table sequence t₀ size counter db)
      (either (fun _ db => last = (counter s.table.name).getD size ∧ Booked table sequence t₀ size
        (Function.update counter s.table.name (some (last + 1))) db) BesideInsert) := by
    apply ensures_request
    · rintro db ⟨⟩ db' ⟨hlast, t, q, ht⟩ hs
      obtain ⟨q', ht'⟩ := ht.of_setCounter hne hown hs
      exact ⟨hlast, t, q', ht'⟩
    · exact fun db refusal _ _ => by simp [either, BesideInsert, Request.step]
  refine ensures_bind hset ?_ fun _ _ h => h
  intro _
  apply ensures_done
  rintro db ⟨hlast, hbooked⟩
  exact ⟨last + 1, rfl, by rw [hlast], hbooked⟩

theorem ensures_insert_booked (hne : sequence.key ≠ table.key) (hd : s.Reaches table sequence t₀)
    (ht₀ : t₀.duplicate? = none) {id : Int} {bounds : Bounds}
    {parent : Option Int} {values : List (Field × Value)} (hv : ∀ x ∈ values, x.1 ∈ s.fields) :
    (request (.insert (some id) bounds parent values)).Ensures s induced
      (fun db => id = (tally s.table.name history).getD history.length + 1 ∧
        Booked table sequence t₀ history.length
          (Function.update (tally · history) s.table.name (some id)) db)
      (fun answer => Follows table sequence t₀ induced s.table.name history
        (answer.map .created)) := by
  have hnext : id = (tally s.table.name history).getD history.length + 1 →
      ¬Overtaken s.table.name history → id = history.length + 1 := fun hid hnot => by
    rw [hid, next_of_not_overtaken hnot]
  apply ensures_request
  · rintro db a db' ⟨hid, t, q, ht⟩ hs
    obtain ⟨ha, hfree, hlast⟩ := ht.of_insertNode hne hd hv hs
    have hnot : ¬Overtaken s.table.name history := by
      intro hovertaken
      have := next_of_overtaken hovertaken
      omega
    refine ⟨?_, by simp [Except.map]⟩
    rintro _ ⟨⟩
    have hid' := hnext hid hnot
    obtain ⟨t', ht'⟩ := hlast hid'
    rw [hid'] at ht' ha
    rw [tally_cons, ha]
    exact ⟨rfl, hnot, t', q, ht'⟩
  · rintro db refusal ⟨hid, t, q, ht⟩ hrefusal
    refine ⟨by simp [Except.map], ?_⟩
    intro refused he
    have hsame : refusal = .notUnique refused t₀.id.name := by
      simpa [Except.map, Request.step] using he
    rw [hsame] at hrefusal
    rcases hrefusal with h | h | h
    · exact .inl h
    · cases h
    · by_contra hneither
      have hnot : ¬Overtaken s.table.name history := fun ho => hneither (.inr ho)
      have hbeyond : (history.length : Int) < id := by
        have := hnext hid hnot
        omega
      exact Books.insertNode_ne hd ht₀ ht hbeyond hv refused h

/-- An add goes on with a history, or the spelling was overtaken. -/
theorem ensures_add (hne : sequence.key ≠ table.key) (hd : s.Reaches table sequence t₀)
    (ht₀ : t₀.duplicate? = none) (payload : Payload) (placement : Placement) :
    ((Edit.add payload placement).procedure s).Ensures s induced
      (Booked table sequence t₀ history.length (tally · history))
      (Follows table sequence t₀ induced s.table.name history) := by
  obtain ⟨own, hids, hown⟩ := hd.ids
  refine Edit.ensures_add (.inl rfl) (fun _ => .inl rfl) (fun pivot => .inr ⟨_, rfl, trivial⟩)
    (fun pivot => .inr ⟨_, rfl, trivial⟩) (ensures_booked hne hd) ?_
    (ensures_insert_booked hne hd ht₀) (fun _ _ => follows_of_besideInsert) ?_
  · rw [hids]
    exact ensures_drawId_booked hne hd hown
  · exact fun e db _ hown => follows_of_besideInsert fun refusal => hown _ _

end Editing

/-! ### Adds one after another -/

def spellings (deeds : List Deed) : List String :=
  deeds.filterMap fun
    | ((h, _, _), .answer (.ok (.created _))) => some h.schema.table.name
    | _ => none

theorem exists_of_mem_spellings {steps : List (Handle × Command × Mishaps)} {replies : List Reply}
    {name : String} (h : name ∈ spellings (steps.zip replies)) :
    ∃ x ∈ steps, x.1.schema.table.name = name := by
  obtain ⟨⟨x, reply⟩, hdeed, hname⟩ := List.mem_filterMap.1 h
  refine ⟨x, (List.of_mem_zip hdeed).1, ?_⟩
  obtain ⟨h, command, mishaps⟩ := x
  split at hname
  next heq =>
    cases heq
    exact Option.some.inj hname
  next => cases hname

def Command.isAdd : Command → Bool
  | .edit (.add _ _) => true
  | _ => false

theorem Command.exists_of_isAdd {command : Command} (h : command.isAdd = true) :
    ∃ payload placement, command = .edit (.add payload placement) := by
  cases command with
  | edit e =>
    cases e with
    | add payload placement => exact ⟨payload, placement, rfl⟩
    | _ => cases h
  | _ => cases h

namespace Session

def deeds (s : Session) (steps : List (Handle × Command × Mishaps)) : List Deed :=
  steps.zip (s.run steps).1

variable {db : Database} {h : Handle}

theorem follows_edit (hne : sequence.key ≠ table.key) (hd : h.schema.Reaches table sequence t₀)
    (ht₀ : t₀.duplicate? = none)
    (hbooked : Booked table sequence t₀ history.length (tally · history) db) (payload : Payload)
    (placement : Placement) (mishaps : Mishaps) :
    let o := Session.edit ⟨⟨db, none⟩, []⟩ h (.add payload placement) mishaps
    ∃ db', o.store = ⟨db', none⟩ ∧ (∀ e, o.answer = .error e → db' = db) ∧
      Follows table sequence t₀ (fun refusal => some refusal ∈ mishaps) h.schema.table.name history
        o.answer db' := by
  intro o
  obtain ⟨db', hstore⟩ : ∃ db', o.store = ⟨db', none⟩ :=
    ⟨o.store.committed, congrArg (Store.mk _) (h.writer_edit db (.add payload placement) mishaps)⟩
  have hundone : ∀ e, o.answer = .error e → db' = db := by
    intro e he
    have hsame : o.store = ⟨db, none⟩ := Handle.store_of_error he
    exact congrArg Store.committed (hstore.symm.trans hsame)
  refine ⟨db', hstore, hundone, ?_⟩
  rcases edit_cases ⟨⟨db, none⟩, []⟩ h (.add payload placement) mishaps with
    ⟨step, refusal, hstep, hanswer⟩ | ⟨d, d', hview, hmishaps, hresult, hlast⟩
  · have hanswer : o.answer = .error (.backend step refusal) := hanswer
    refine ⟨by simp [hanswer], ?_⟩
    intro refused he
    rw [hanswer] at he
    rcases hstep with rfl | rfl <;> cases he
  · have hview : d.database = db := hview
    rw [← hview] at hbooked
    have hfollows := Editing.ensures_add hne hd ht₀ payload placement d hbooked hmishaps
    rw [hresult] at hfollows
    refine ⟨fun a ha => ?_, hfollows.refused⟩
    have hdb' : db' = d'.database := by
      have hstored : o.store.view h.connection = d'.database := hlast a ha
      rwa [hstore] at hstored
    rw [hdb']
    exact hfollows.created a ha

/-- What a run of adds makes of a history: it goes on with the spellings of those that succeed, and
they get the numbers that come next. -/
theorem booked_run (hne : sequence.key ≠ table.key) (ht₀ : t₀.duplicate? = none)
    {steps : List (Handle × Command × Mishaps)}
    (hsteps : ∀ x ∈ steps, x.1.schema.Reaches table sequence t₀ ∧ x.2.1.isAdd = true)
    (hbooked : Booked table sequence t₀ history.length (tally · history) db) :
    (∃ db', (Session.run ⟨⟨db, none⟩, []⟩ steps).2 = ⟨⟨db', none⟩, []⟩ ∧
      Booked table sequence t₀
        ((spellings (deeds ⟨⟨db, none⟩, []⟩ steps)).reverse ++ history).length
        (tally · ((spellings (deeds ⟨⟨db, none⟩, []⟩ steps)).reverse ++ history)) db') ∧
      issuedIds (deeds ⟨⟨db, none⟩, []⟩ steps) =
        (List.range' (history.length + 1)
          (spellings (deeds ⟨⟨db, none⟩, []⟩ steps)).length).map Int.ofNat := by
  induction steps generalizing db history with
  | nil => exact ⟨⟨db, rfl, hbooked⟩, rfl⟩
  | cons x rest ih =>
    obtain ⟨h, command, mishaps⟩ := x
    rw [List.forall_mem_cons] at hsteps
    obtain ⟨⟨hd, hadd⟩, hrest⟩ := hsteps
    obtain ⟨payload, placement, rfl⟩ := Command.exists_of_isAdd hadd
    obtain ⟨db', hstore, hundone, hfollows⟩ :=
      follows_edit hne hd ht₀ hbooked payload placement mishaps
    have hrun : (Session.run ⟨⟨db, none⟩, []⟩
        ((h, .edit (.add payload placement), mishaps) :: rest)).2 =
        (Session.run ⟨⟨db', none⟩, []⟩ rest).2 := by
      rw [← hstore]
      rfl
    have hdeeds : deeds ⟨⟨db, none⟩, []⟩ ((h, .edit (.add payload placement), mishaps) :: rest) =
        ((h, .edit (.add payload placement), mishaps), .answer
          (Session.edit ⟨⟨db, none⟩, []⟩ h (.add payload placement) mishaps).answer) ::
        deeds ⟨⟨db', none⟩, []⟩ rest := by
      rw [← hstore]
      rfl
    rw [hrun, hdeeds]
    cases ha : (Session.edit ⟨⟨db, none⟩, []⟩ h (.add payload placement) mishaps).answer with
    | error e =>
      rw [hundone e ha]
      exact ih hrest hbooked
    | ok a =>
      obtain ⟨rfl, -, hnext⟩ := hfollows.created a ha
      have hnext : Booked table sequence t₀ (h.schema.table.name :: history).length
          (tally · (h.schema.table.name :: history)) db' := hnext
      obtain ⟨hlast, hids⟩ := ih hrest hnext
      have hspelled : spellings (((h, .edit (.add payload placement), mishaps),
          .answer (.ok (.created (history.length + 1)))) :: deeds ⟨⟨db', none⟩, []⟩ rest) =
          h.schema.table.name :: spellings (deeds ⟨⟨db', none⟩, []⟩ rest) := rfl
      have hissued : issuedIds (((h, .edit (.add payload placement), mishaps),
          .answer (.ok (.created (history.length + 1)))) :: deeds ⟨⟨db', none⟩, []⟩ rest) =
          (history.length + 1 : Int) :: issuedIds (deeds ⟨⟨db', none⟩, []⟩ rest) := rfl
      rw [hspelled, hissued, List.reverse_cons, List.append_assoc, List.singleton_append]
      refine ⟨hlast, ?_⟩
      rw [hids, List.length_cons, List.length_cons, List.range'_succ, List.map_cons]
      rfl

end Session

end

/-- Handles add nodes to one table and draw the ids from one sequence, in any partitions and any
order, by names that differ in their cases. The nodes get the numbers from 1 in the order in which
they are added. An add is refused because its id is taken only where another spelling of the table
has added a node since its own one did; then it never succeeds. So none is refused for that as long
as all handles spell the table alike. -/
theorem spellings_overtake_each_other {table sequence : Identifier} {start : Database}
    {t q : Table} {steps : List (Handle × Command × Mishaps)} (hne : sequence.key ≠ table.key)
    (ht : start.table? table = some t) (hplain : t.duplicate? = none) (hempty : t.rows = [])
    (hq : start.table? sequence = some q) (hdeclared : Sequence.Declared q)
    (hfresh : ∀ name, Sequence.value? q name = .ok none)
    (hsteps : ∀ x ∈ steps, x.1.schema.Reaches table sequence t ∧ x.2.1.isAdd = true) :
    let deeds := Session.deeds ⟨⟨start, none⟩, []⟩ steps
    let history := (spellings deeds).reverse
    issuedIds deeds = (List.range' 1 history.length).map Int.ofNat ∧
    ∀ (h : Handle) (payload : Payload) (placement : Placement) (mishaps : Mishaps),
      h.schema.Reaches table sequence t →
      let answer := ((Session.run ⟨⟨start, none⟩, []⟩ steps).2.edit h (.add payload placement)
        mishaps).answer
      (∀ refused, answer = .error (.backend .insert (.notUnique refused t.id.name)) →
        some (.notUnique refused t.id.name) ∈ mishaps ∨ Overtaken h.schema.table.name history) ∧
      (Overtaken h.schema.table.name history → ∀ a, answer ≠ .ok a) ∧
      ((∀ x ∈ steps, x.1.schema.table.name = h.schema.table.name) →
        ∀ refused, some (.notUnique refused t.id.name) ∉ mishaps →
          answer ≠ .error (.backend .insert (.notUnique refused t.id.name))) := by
  intro deeds history
  have hstart : Booked table sequence t ([] : List String).length (tally · []) start :=
    ⟨t, q, ht, rfl, rfl, hq, hdeclared, hfresh, by simp [hempty]; omega⟩
  obtain ⟨⟨db, hrun, hbooked⟩, hids⟩ := Session.booked_run hne hplain hsteps hstart
  rw [List.append_nil] at hbooked
  refine ⟨by simpa [history] using hids, ?_⟩
  intro h payload placement mishaps hd
  obtain ⟨db', -, -, hfollows⟩ :=
    Session.follows_edit hne hd hplain hbooked payload placement mishaps
  rw [hrun]
  refine ⟨hfollows.refused, ?_, ?_⟩
  · intro hovertaken a ha
    exact (hfollows.created a ha).2.1 hovertaken
  · intro hsame refused hm he
    refine not_overtaken_of_forall_eq ?_ ((hfollows.refused refused he).resolve_left hm)
    intro name hname
    obtain ⟨x, hx, rfl⟩ := exists_of_mem_spellings (List.mem_reverse.1 hname)
    exact hsame x hx

def capitalHandle (n : Nat) (name : String) : Handle :=
  ⟨n, ⟨⟨name⟩, ⟨"id"⟩, ⟨"l"⟩, ⟨"r"⟩, ⟨"parent"⟩, some ⟨⟨"part"⟩, .integer n⟩, [], .left,
    .sequence ⟨"s"⟩⟩⟩

def capitalMapping (n : Nat) (name : String) : Mapping :=
  { table := name, partition := some ⟨"part", .integer n⟩, ids := .sequence "s" }

def capitalSteps : List (Handle × Command × Mishaps) :=
  [(capitalHandle 0 "T", .edit (.add [] .root), []),
    (capitalHandle 1 "t", .edit (.add [] .root), [])]

theorem spellings_overtake_each_other_capital :
    let start : Database :=
      { tables := [Table.ofSchema (capitalHandle 0 "T").schema, .ofSequence ⟨"s"⟩] }
    let session := (Session.run ⟨⟨start, none⟩, []⟩ capitalSteps).2
    issuedIds (Session.deeds ⟨⟨start, none⟩, []⟩ capitalSteps) = [1, 2] ∧
      (∀ a, (session.edit (capitalHandle 0 "T") (.add [] (.firstChildOf 1)) []).answer ≠ .ok a) ∧
      (session.edit (capitalHandle 1 "t") (.add [] (.firstChildOf 2)) []).answer ≠
        .error (.backend .insert (.notUnique "T" "id")) := by
  intro start session
  have hreaches : ∀ n, ∀ name ∈ ["T", "t"], (capitalHandle n name).schema.Reaches ⟨"T"⟩ ⟨"s"⟩
      (Table.ofSchema (capitalHandle 0 "T").schema) := by
    intro n name hname
    have hkey : Identifier.key ⟨name⟩ = Identifier.key ⟨"T"⟩ := by
      revert name
      decide +kernel
    have hapart : (capitalHandle 0 "T").schema.IdsApart
        (Table.ofSchema (capitalHandle 0 "T").schema) := ⟨by decide +kernel, by decide +kernel⟩
    exact ⟨hkey, ⟨_, rfl, rfl⟩, by simp [Schema.IsCovered, capitalHandle], hapart.id,
      hapart.others⟩
  have hne : Identifier.key ⟨"s"⟩ ≠ Identifier.key ⟨"T"⟩ := by decide +kernel
  have ht : start.table? ⟨"T"⟩ = some (Table.ofSchema (capitalHandle 0 "T").schema) := by
    decide +kernel
  have hq : start.table? ⟨"s"⟩ = some (.ofSequence ⟨"s"⟩) := by decide +kernel
  have hfresh := Sequence.value?_of_empty (Sequence.declared_ofSequence ⟨"s"⟩) rfl
  have hsteps : ∀ x ∈ capitalSteps, x.1.schema.Reaches ⟨"T"⟩ ⟨"s"⟩
      (Table.ofSchema (capitalHandle 0 "T").schema) ∧ x.2.1.isAdd = true := by
    simp [capitalSteps, hreaches, Command.isAdd]
  obtain ⟨hids, hadd⟩ := spellings_overtake_each_other hne ht (by decide +kernel) rfl hq
    (Sequence.declared_ofSequence _) hfresh hsteps
  have hhistory : (spellings (Session.deeds ⟨⟨start, none⟩, []⟩ capitalSteps)).reverse =
      ["t", "T"] := by
    decide +kernel
  rw [hhistory] at hids hadd
  refine ⟨hids, ?_, ?_⟩
  · exact (hadd (capitalHandle 0 "T") [] (.firstChildOf 1) [] (hreaches 0 "T" (by simp))).2.1
      (by decide)
  · intro he
    have hrefused := (hadd (capitalHandle 1 "t") [] (.firstChildOf 2) []
      (hreaches 1 "t" (by simp))).1 "T" he
    exact absurd hrefused (by decide)

/-- The handle that began is refused the next id, which the other one has given. -/
theorem capital_draws_an_id_that_is_taken :
    let h := capitalHandle 0 "T"
    let h' := capitalHandle 1 "t"
    let start := (h'.ensure (h.ensure {}).2).2
    (capitalMapping 0 "T").validate = .ok h.schema ∧
      (capitalMapping 1 "t").validate = .ok h'.schema ∧
      (start.committed.table? ⟨"t"⟩).map (·.rows) = some [] ∧
      ((Session.run ⟨start, []⟩ capitalSteps).2.edit h (.add [] (.firstChildOf 1))).answer =
        .error (.backend .insert (.notUnique "T" "id")) := by
  decide +kernel

end NestedSet
