import Mathlib
import NestedSet.Proofs.Isolation

/-!
# Partitions of different kinds

The keys of two partitions of one table may be a number and a text. The table
was made for one kind of key and takes the other as far as it can: the text of
a number and the number itself may come to one value, and then both trees are
the same. Keys that do not meet in the column keep their trees apart, whatever
is done with them.
-/

set_option autoImplicit false

namespace NestedSet

/-! ### Keys that meet -/

/-- Two keys come to one value in a column of the affinity. -/
def PartitionKey.Meets (a : Affinity) (k k' : PartitionKey) : Prop :=
  (a.convert k.value).equals (a.convert k'.value) = true

instance (a : Affinity) (k k' : PartitionKey) : Decidable (k.Meets a k') :=
  inferInstanceAs (Decidable (_ = _))

namespace Value

theorem equals_comm (a b : Value) : a.equals b = b.equals a := by
  simp only [equals, same, Bool.and_comm (le b a), Bool.and_comm (b != .null)]

theorem le_of_numbers {a b : Value} (ha : a.rank = 1) (hb : b.rank = 1) :
    a.le b = decide (a.size ≤ b.size) := by
  have hunit : ∀ n, (0 : Int) < (Nat.pow 2 n : Nat) := fun n =>
    Int.natCast_pos.2 (Nat.two_pow_pos n)
  cases a with
  | integer m =>
    cases b with
    | integer n => exact decide_eq_decide.2 (mul_le_mul_iff_left₀ (hunit _)).symm
    | real r => simp [le, rank]
    | _ => cases hb
  | real r =>
    cases b with
    | integer n => simp [le, rank]
    | real r' => simp [le, rank]
    | _ => cases hb
  | _ => cases ha

theorem equals_number_iff {a b : Value} (hb : b.rank = 1) :
    a.equals b = true ↔ a.rank = 1 ∧ a.size = b.size := by
  have hsome {v : Value} (hv : v.rank = 1) : (v != .null) = true := by
    cases v <;> first | rfl | cases hv
  by_cases ha : a.rank = 1
  · rw [equals, hsome ha, hsome hb, same, le_of_numbers ha hb, le_of_numbers hb ha]
    simp only [Bool.true_and, Bool.and_eq_true, decide_eq_true_eq, ha, true_and]
    exact ⟨fun h => le_antisymm h.1 h.2, fun h => ⟨h.le, h.ge⟩⟩
  · have hnot : a.equals b = false := by
      cases b with
      | integer n => cases a <;> simp_all [equals, same, le, rank]
      | real r => cases a <;> simp_all [equals, same, le, rank]
      | _ => cases hb
    simp [hnot, ha]

theorem equals_text_iff {a : Value} {s : String} : a.equals (.text s) = true ↔ a = .text s := by
  refine ⟨eq_text_of_equals, ?_⟩
  rintro rfl
  simp [equals, same, le]

def IsPlain (v : Value) : Prop := v.rank = 1 ∨ ∃ s, v = .text s

theorem equals_self {v : Value} (hv : v.IsPlain) : v.equals v = true := by
  rcases hv with hv | ⟨s, rfl⟩
  · exact (equals_number_iff hv).2 ⟨hv, rfl⟩
  · exact equals_text_iff.2 rfl

/-- Numbers and texts that one value agrees with agree with each other. -/
theorem equals_of_common {v a b : Value} (hb : b.IsPlain)
    (hva : v.equals a = true) (hvb : v.equals b = true) : a.equals b = true := by
  rcases hb with hb | ⟨s, rfl⟩
  · obtain ⟨hv, hsize⟩ := (equals_number_iff hb).1 hvb
    rw [equals_comm, equals_number_iff hv] at hva
    exact (equals_number_iff hb).2 ⟨hva.1, hva.2.trans hsize⟩
  · obtain rfl := equals_text_iff.1 hvb
    rwa [equals_comm]

end Value

/-! ### What a partition column makes of a key -/

namespace Affinity

theorem isPlain_settle (r : Double) : (settle r).IsPlain := by
  unfold settle
  split
  · split
    · exact .inl rfl
    · exact .inl rfl
  · exact .inl rfl

theorem isPlain_of_read? {s : String} {v : Value} (h : Numeral.read? s = some v) : v.IsPlain := by
  have hvalue (negative : Bool) (whole : List Char) (fraction : Option (List Char))
      (exponent : Option Int) : (Numeral.value negative whole fraction exponent).IsPlain := by
    unfold Numeral.value
    dsimp only
    split
    · exact .inl rfl
    · exact .inl rfl
  unfold Numeral.read? at h
  dsimp only at h
  split at h
  · cases h
  · obtain ⟨⟨exponent, rest⟩, -, h⟩ := Option.bind_eq_some_iff.1 h
    dsimp only at h
    split at h
    · cases h
      exact hvalue _ _ _ _
    · cases h

theorem isPlain_toNumber (k : PartitionKey) : (toNumber k.value).IsPlain := by
  cases k with
  | integer n => exact .inl rfl
  | text s =>
    unfold PartitionKey.value toNumber
    cases hread : Numeral.read? s with
    | none => exact .inr ⟨s, by simp [hread]⟩
    | some v =>
      have hv := isPlain_of_read? hread
      cases v with
      | real r => simpa [hread] using isPlain_settle r
      | _ => simpa [hread] using hv

theorem exists_toText (k : PartitionKey) : ∃ s, toText k.value = .text s := by
  cases k <;> exact ⟨_, rfl⟩

theorem convert_key (a : Affinity) (k : PartitionKey) :
    (a = .numeric → a.convert k.value = toNumber k.value) ∧
      (a = .text → a.convert k.value = toText k.value) := by
  constructor
  · rintro rfl
    cases k <;> rfl
  · rintro rfl
    cases k <;> rfl

end Affinity

theorem PartitionKey.Meets.symm {a : Affinity} {k k' : PartitionKey} (h : k.Meets a k') :
    k'.Meets a k :=
  (Value.equals_comm _ _).trans h

theorem PartitionKey.meets_self {a : Affinity} (ha : a = .numeric ∨ a = .text) (k : PartitionKey) :
    k.Meets a k := by
  rcases ha with rfl | rfl
  · rw [Meets, (Affinity.convert_key _ k).1 rfl]
    exact Value.equals_self (Affinity.isPlain_toNumber k)
  · rw [Meets, (Affinity.convert_key _ k).2 rfl]
    exact Value.equals_self (.inr (Affinity.exists_toText k))

namespace Cell

variable {c : Cell} {k k' : PartitionKey}

/-- What a key is stored as agrees with the keys that it meets. -/
theorem equals_stored_iff {name : String} {a : Affinity} (ha : a = .numeric ∨ a = .text)
    (k k' : PartitionKey) :
    (⟨name, a, a.convert k.value⟩ : Cell).equals k'.value = true ↔ k.Meets a k' := by
  rcases ha with rfl | rfl
  · rw [PartitionKey.Meets, (Affinity.convert_key _ k').1 rfl]
    rfl
  · obtain ⟨s, hs⟩ := Affinity.exists_toText k
    rw [PartitionKey.Meets, (Affinity.convert_key _ k).2 rfl, (Affinity.convert_key _ k').2 rfl,
      equals, hs]
    rfl

theorem meets_of_equals (ha : c.affinity = .numeric ∨ c.affinity = .text)
    (h : c.equals k.value = true) (h' : c.equals k'.value = true) : k.Meets c.affinity k' := by
  obtain ⟨name, affinity, value⟩ := c
  dsimp only at ha ⊢
  rcases ha with rfl | rfl
  · rw [PartitionKey.Meets, (Affinity.convert_key _ k).1 rfl, (Affinity.convert_key _ k').1 rfl]
    exact Value.equals_of_common (Affinity.isPlain_toNumber k') h h'
  · rw [PartitionKey.Meets, (Affinity.convert_key _ k).2 rfl, (Affinity.convert_key _ k').2 rfl]
    obtain ⟨s, hs⟩ := Affinity.exists_toText k
    obtain ⟨s', hs'⟩ := Affinity.exists_toText k'
    by_cases hv : ∃ v, value = .text v
    · obtain ⟨v, rfl⟩ := hv
      rw [equals, form, hs] at h
      rw [equals, form, hs'] at h'
      rw [hs, hs']
      exact Value.equals_of_common (.inr ⟨s', rfl⟩) h h'
    · -- a column of texts leaves no number as it is, but if there were one it would have one key
      have hraw (v : Value) : (⟨name, .text, value⟩ : Cell).form v = v := by
        cases value with
        | text v => exact absurd ⟨v, rfl⟩ hv
        | _ => rfl
      rw [equals, hraw] at h h'
      cases k with
      | text a => exact absurd ⟨a, Value.eq_text_of_equals h⟩ hv
      | integer m =>
        cases k' with
        | text b => exact absurd ⟨b, Value.eq_text_of_equals h'⟩ hv
        | integer n =>
          obtain rfl := Value.eq_of_equals_integer h h'
          exact Value.equals_self (.inr ⟨_, rfl⟩)

end Cell

namespace Table

theorem affinity_partitionColumn (p : Partition) :
    (partitionColumn p).affinity = .numeric ∨ (partitionColumn p).affinity = .text := by
  unfold partitionColumn
  split
  · exact .inl rfl
  · exact .inr rfl

end Table

theorem Partition.eq_of_meets {p q : Partition}
    (haffinity : (Table.partitionColumn q).affinity = (Table.partitionColumn p).affinity)
    (h : p.key.Meets (Table.partitionColumn p).affinity q.key) : q.key = p.key := by
  obtain ⟨column, key⟩ := p
  obtain ⟨column', key'⟩ := q
  cases key with
  | integer m =>
    cases key' with
    | integer n =>
      have heq : (Value.integer m).equals (.integer n) = true := h
      rw [Value.equals_integer, decide_eq_true_eq] at heq
      rw [heq]
    | text b => cases haffinity
  | text a =>
    cases key' with
    | integer n => cases haffinity
    | text b =>
      have heq : (Value.text a).equals (.text b) = true := h
      cases Value.equals_text_iff.1 heq
      rfl

/-! ### Two trees of one table -/

namespace Schema

/-- Another tree of the same table: all columns are named alike, and the partitions are told apart
by the same column, if by keys of different kinds. -/
structure Cohabits (s s' : Schema) : Prop where
  table : s'.table = s.table
  id : s'.id = s.id
  left : s'.left = s.left
  right : s'.right = s.right
  parent : s'.parent = s.parent
  fields : s'.fields = s.fields
  column : s'.partition.map (·.column) = s.partition.map (·.column)

/-- The schema as it would be if its tree were the one of another partition. -/
def inPlaceOf (s g : Schema) : Schema := { s with partition := g.partition }

variable {s g : Schema} {t t' : Table} {db db' : Database}

namespace Cohabits

theorem refl (s : Schema) : s.Cohabits s := ⟨rfl, rfl, rfl, rfl, rfl, rfl, rfl⟩

theorem symm (h : g.Cohabits s) : s.Cohabits g :=
  ⟨h.table.symm, h.id.symm, h.left.symm, h.right.symm, h.parent.symm, h.fields.symm,
    h.column.symm⟩

theorem akin (h : g.Cohabits s) : g.Akin (s.inPlaceOf g) :=
  ⟨h.table, h.id, h.left, h.right, h.parent, h.fields, rfl⟩

theorem sound (h : g.Cohabits s) (hg : g.Sound) (hs : s.Sound) : (s.inPlaceOf g).Sound :=
  h.akin.sound hg hs.fields hs.sequence

theorem exists_partition (h : g.Cohabits s) {p : Partition} (hp : s.partition = some p) :
    ∃ q, g.partition = some q ∧ q.column = p.column := by
  have hcolumn := h.column
  rw [hp, Option.map_some] at hcolumn
  exact Option.map_eq_some_iff.1 hcolumn.symm

end Cohabits

/-- A table that was made for one of two trees, as the other one sees it. -/
structure Hosts (g s : Schema) (t : Table) : Prop where
  host : g.Sound
  guest : s.Sound
  cohabits : g.Cohabits s
  declares : g.Declares t

namespace Hosts

theorem sound (h : g.Hosts s t) : (s.inPlaceOf g).Sound := h.cohabits.sound h.host h.guest

theorem declares_inPlaceOf (h : g.Hosts s t) : (s.inPlaceOf g).Declares t :=
  h.cohabits.akin.declares h.declares

theorem idsApart (h : g.Hosts s t) : s.IdsApart t := by
  have hapart := Schema.idsApart h.sound h.declares_inPlaceOf
  have hcolumns : (s.inPlaceOf g).columns = s.columns := by
    simp only [inPlaceOf, columns, structuralColumns, h.cohabits.column]
  exact ⟨hapart.id, hcolumns ▸ hapart.others⟩

theorem cell_partition (h : g.Hosts s t) {p : Partition} (hp : s.partition = some p) (r : Row) :
    ∃ q, g.partition = some q ∧ t.cell p.column r =
      ⟨p.column.name, (Table.partitionColumn q).affinity, r.get p.column.key⟩ := by
  obtain ⟨q, hq, hname⟩ := h.cohabits.exists_partition hp
  have hmem := partitionColumn_mem hq
  have hcell := Table.cell_of_column? (h.host.isId_column h.declares hmem)
    (h.host.column? h.declares hmem) r
  rw [name_partitionColumn, hname] at hcell
  exact ⟨q, hq, hcell⟩

theorem frame_assign (h : g.Hosts s t) {c : Identifier} (hc : c ∈ s.written) (v : Value) (r : Row) :
    s.inScope t (t.assign c v r) = s.inScope t r := by
  have hwritten : c ∈ (s.inPlaceOf g).written := hc
  obtain ⟨column, hcolumn, rfl, hpartition⟩ := exists_written h.sound hwritten
  cases hp : s.partition with
  | none => simp [inScope, hp]
  | some p =>
    obtain ⟨q, hq, hname⟩ := h.cohabits.exists_partition hp
    have hcell := cell_assign_of_ne h.sound h.declares_inPlaceOf hcolumn
      (hname ▸ hpartition q hq) v r
    simp [inScope, hp, hcell]

theorem frame_revise (h : g.Hosts s t) {c : Change} (hc : (Request.revise c).Proper s) (r : Row) :
    s.inScope t (t.revise (c.onRows s t) r) = s.inScope t r := by
  unfold Table.revise
  split
  · exact Table.revised_congr (s.inScope t)
      (fun c' hc' v r => h.frame_assign (Change.written_onRows hc c' hc') v r) r
  · rfl

theorem cell_newRow (h : g.Hosts s t) {p q : Partition} (hp : s.partition = some p)
    (hq : g.partition = some q) (id : Option Int) (bounds : Bounds) (parent : Option Int)
    (values : List (Field × Value)) (new : Int) :
    t.cell p.column (t.newRow new (s.entry id bounds parent values)) =
      ⟨p.column.name, (Table.partitionColumn q).affinity,
        (Table.partitionColumn q).affinity.convert p.key.value⟩ := by
  obtain ⟨q', hq', hcell⟩ := h.cell_partition hp (t.newRow new (s.entry id bounds parent values))
  obtain rfl : q = q' := Option.some.inj (hq.symm.trans hq')
  obtain ⟨q', hq', hname⟩ := h.cohabits.exists_partition hp
  obtain rfl : q = q' := Option.some.inj (hq.symm.trans hq')
  have hpart {c : Identifier} (hc : c ∈ s.structuralColumns) : c.key ≠ p.column.key :=
    (h.guest.partition_ne hp hc).symm
  have hid := hpart (show s.id ∈ s.structuralColumns by simp [structuralColumns])
  have hleft := hpart (show s.left ∈ s.structuralColumns by simp [structuralColumns])
  have hright := hpart (show s.right ∈ s.structuralColumns by simp [structuralColumns])
  have hparent := hpart (show s.parent ∈ s.structuralColumns by simp [structuralColumns])
  have hgiven : Table.given? (s.entry id bounds parent values) p.column = some p.key.value := by
    rw [given?_entry id bounds parent hid]
    simp [hp, Table.given?_cons, hleft, hright, hparent]
  have hvalue := Table.cell_newRow h.host h.declares (partitionColumn_mem hq) new
    (s.entry id bounds parent values)
  rw [name_partitionColumn, hname, hgiven, hcell] at hvalue
  rw [hcell]
  exact congrArg (Cell.mk _ _) hvalue

theorem inScope_newRow (h : g.Hosts s t) (id : Option Int) (bounds : Bounds) (parent : Option Int)
    (values : List (Field × Value)) (new : Int) :
    s.inScope t (t.newRow new (s.entry id bounds parent values)) = true := by
  cases hp : s.partition with
  | none => simp [inScope, hp]
  | some p =>
    obtain ⟨q, hq, -⟩ := h.cohabits.exists_partition hp
    have haffinity := Table.affinity_partitionColumn q
    simp only [inScope, hp, Option.all_some, h.cell_newRow hp hq]
    exact (Cell.equals_stored_iff haffinity _ _).2 (PartitionKey.meets_self haffinity _)

theorem spares_of_statement (h : g.Hosts s t) (hfound : db.table? s.table = some t) {q : Request}
    (hq : q.Proper s) {a : q.Reply} (hok : q.statement s db = .ok (a, db')) :
    ∃ t', db'.table? s.table = some t' ∧ s.Spares t t' := by
  have hsame : db' = db → ∃ t', db'.table? s.table = some t' ∧ s.Spares t t' := by
    rintro rfl
    exact ⟨t, hfound, .refl s t⟩
  have hset : ∀ t', s.Spares t t' → db' = db.setTable t' →
      ∃ t', db'.table? s.table = some t' ∧ s.Spares t t' := by
    rintro t' hspares rfl
    exact ⟨t', Database.table?_setTable_self hfound hspares.name, hspares⟩
  cases q with
  | find id => exact hsame (Request.ask_ok hok).2
  | count => exact hsame (Request.ask_ok hok).2
  | counter sequence => exact hsame (Request.ask_ok hok).2
  | largestId => exact hsame (Request.ask_ok hok).2
  | setCounter sequence value =>
    exact ⟨t, (setCounter_ok h.guest hq hok).1.trans hfound, .refl s t⟩
  | insert id bounds parent values =>
    obtain ⟨-, -, -, hroom, hdb⟩ := insertNode_of_idsApart hfound h.idsApart hq hok
    exact hset _ (spares_withRow_of_inScope hroom (h.inScope_newRow id bounds parent values a)) hdb
  | delete range =>
    obtain ⟨t₀, ht, -, hdb⟩ := deleteRange_ok hok
    obtain rfl : t = t₀ := Option.some.inj (hfound.symm.trans ht)
    exact hset _ (spares_delete s t range) hdb
  | revise c =>
    have hids : ∀ t₀, db.table? s.table = some t₀ →
        ∀ column ∈ (c.onRows s t₀).columns, t₀.isId column = false := by
      intro t₀ ht column hcolumn
      obtain rfl : t = t₀ := Option.some.inj (hfound.symm.trans ht)
      exact h.idsApart.not_isId (Change.written_onRows hq column hcolumn)
    obtain ⟨t₀, ht, -, hdb⟩ := exists_of_revise hids hok
    obtain rfl : t = t₀ := Option.some.inj (hfound.symm.trans ht)
    exact hset _ (spares_revise_of_inScope fun r => h.frame_revise hq r) hdb

end Hosts

/-! ### What keeps two trees of one table apart -/

/-- What it means for a handle that another one works on a table that was made for `g`. -/
structure SetsApart (g : Schema) (h h' : Handle) : Prop where
  /-- No row is of both trees. -/
  disjoint : ∀ t, g.Declares t → ∀ r, h.schema.inScope t r = true → h'.schema.inScope t r = false
  /-- Whatever is done through the first handle leaves the rows of the other tree as they are, in
  what was committed and in every draft: succeed or fail, in whatever transactions. -/
  undisturbed : ∀ (P : List Row → Prop) (session : Session) (command : Command)
    (mishaps : Mishaps), session.store.Every (fun db => g.Installed db ∧ P (h'.schema.rows db)) →
    (session.perform h command mishaps).2.1.store.Every fun db =>
      g.Installed db ∧ P (h'.schema.rows db)
  /-- So does the first handle's installation. -/
  ensured : ∀ (P : List Row → Prop) (store : Store),
    store.Every (fun db => g.Installed db ∧ P (h'.schema.rows db)) →
    (h.ensure store).2.Every fun db => g.Installed db ∧ P (h'.schema.rows db)
  /-- What is read through the first handle is asked of the rows of its own tree. -/
  shown : ∀ store : Store, g.Installed (store.view h.connection) →
    ∃ t, g.Declares t ∧ ∀ {α : Type} (question : List Record → Except TreeError α),
      h.read store question =
        question ((h.schema.rows (store.view h.connection)).map (h.schema.record t))

/-- Neither of two handles has to do with the rows of the other, in any run of both. -/
structure KeepsApart (g : Schema) (h h' : Handle) : Prop where
  there : g.SetsApart h h'
  back : g.SetsApart h' h
  lasting : ∀ (session : Session) (steps : List (Handle × Command × Mishaps)),
    (∀ x ∈ steps, x.1 = h ∨ x.1 = h') → session.store.Every g.Installed →
    (session.run steps).2.store.Every fun db =>
      g.Installed db ∧ ∀ r ∈ h.schema.rows db, r ∉ h'.schema.rows db

namespace Hosts

variable {s' : Schema}

theorem disjoint (h : g.Hosts s t) (h' : g.Hosts s' t) {p p' : Partition}
    (hp : s.partition = some p) (hp' : s'.partition = some p') {q : Partition}
    (hq : g.partition = some q) (hmeets : ¬p.key.Meets (Table.partitionColumn q).affinity p'.key)
    {r : Row} (hr : s.inScope t r = true) : s'.inScope t r = false := by
  obtain ⟨q₁, hq₁, hcell⟩ := h.cell_partition hp r
  obtain rfl : q = q₁ := Option.some.inj (hq.symm.trans hq₁)
  obtain ⟨q₂, hq₂, hname⟩ := h.cohabits.exists_partition hp
  obtain rfl : q = q₂ := Option.some.inj (hq.symm.trans hq₂)
  obtain ⟨q₃, hq₃, hname'⟩ := h'.cohabits.exists_partition hp'
  obtain rfl : q = q₃ := Option.some.inj (hq.symm.trans hq₃)
  rw [Bool.eq_false_iff]
  intro hr'
  simp only [inScope, hp, hp', Option.all_some, ← hname', hname, hcell] at hr hr'
  exact hmeets (Cell.meets_of_equals (Table.affinity_partitionColumn q) hr hr')

end Hosts

/-- Statements for one tree leave what the other one has, if they share no row. -/
theorem maintains_apart {s' : Schema} (hosts : ∀ t, g.Declares t → g.Hosts s t)
    (hosts' : ∀ t, g.Declares t → g.Hosts s' t)
    (hapart : ∀ t, g.Declares t → ∀ r, s.inScope t r = true → s'.inScope t r = false)
    (P : List Row → Prop) : s.Maintains fun db => g.Installed db ∧ P (s'.rows db) := by
  rintro q db a db' hq ⟨⟨t, ht, hd⟩, hP⟩ hok
  have hsame := (hosts t hd).cohabits.table
  have hsame' := (hosts' t hd).cohabits.table
  obtain ⟨t', ht', hspares⟩ := (hosts t hd).spares_of_statement (hsame ▸ ht) hq hok
  have hrows : s'.rows db' = s'.rows db := by
    rw [rows_of_table? (hsame' ▸ ht : db.table? s'.table = some t),
      rows_of_table? (hsame'.trans hsame.symm ▸ ht' : db'.table? s'.table = some t')]
    exact scope_of_spares (hapart t hd) hspares
  exact ⟨⟨t', hsame ▸ ht', hspares.id.trans hd.id, hspares.columns.trans hd.columns⟩, hrows ▸ hP⟩

variable {h h' : Handle} {p p' q : Partition}

theorem Cohabits.hosts {s' : Schema} (hc : s.Cohabits s') (hs : s.Sound) (hs' : s'.Sound)
    (hg : g = s ∨ g = s') (hd : g.Declares t) : g.Hosts s t ∧ g.Hosts s' t := by
  rcases hg with rfl | rfl
  · exact ⟨⟨hs, hs, .refl g, hd⟩, ⟨hs, hs', hc, hd⟩⟩
  · exact ⟨⟨hs', hs, hc.symm, hd⟩, ⟨hs', hs', .refl g, hd⟩⟩

theorem setsApart (hosts : ∀ t, g.Declares t → g.Hosts h.schema t)
    (hosts' : ∀ t, g.Declares t → g.Hosts h'.schema t)
    (hapart : ∀ t, g.Declares t → ∀ r,
      h.schema.inScope t r = true → h'.schema.inScope t r = false) : g.SetsApart h h' := by
  refine ⟨hapart, ?_, ?_, ?_⟩
  · intro P session command mishaps hstart
    have hkept := maintains_apart hosts hosts' hapart P
    exact Session.every_perform hstart hkept.takes (fun _ _ => hkept.takes _) command mishaps
  · intro P store hstart
    have hinstalled : g.Installed ((store.view h.connection).install h.schema).2 ∧
        P (h'.schema.rows ((store.view h.connection).install h.schema).2) := by
      obtain ⟨⟨t, ht, hd⟩, hP⟩ := hstart.view h.connection
      have hsame := (hosts' t hd).cohabits.table
      have ht' := Database.table?_install (s := h.schema) ht
      rw [rows_of_table? (hsame ▸ ht)] at hP
      rw [rows_of_table? (hsame ▸ ht')]
      exact ⟨⟨t, ht', hd⟩, hP⟩
    unfold Handle.ensure
    dsimp only
    split
    · exact hstart.replace hinstalled
    · exact hstart
  · rintro store ⟨t, ht, hd⟩
    have ht' : (store.view h.connection).table? h.schema.table = some t :=
      (hosts t hd).cohabits.table ▸ ht
    refine ⟨t, hd, fun question => ?_⟩
    rw [Handle.read_of_records (records_of_table? ht'), rows_of_table? ht']
    rfl

theorem keepsApart (hosts : ∀ t, g.Declares t → g.Hosts h.schema t)
    (hosts' : ∀ t, g.Declares t → g.Hosts h'.schema t)
    (hapart : ∀ t, g.Declares t → ∀ r,
      h.schema.inScope t r = true → h'.schema.inScope t r = false) : g.KeepsApart h h' := by
  have hback : ∀ t, g.Declares t → ∀ r,
      h'.schema.inScope t r = true → h.schema.inScope t r = false := by
    intro t hd r hr
    rw [Bool.eq_false_iff]
    intro hr'
    rw [hapart t hd r hr'] at hr
    cases hr
  refine ⟨setsApart hosts hosts' hapart, setsApart hosts' hosts hback, ?_⟩
  intro session steps hsteps hstart
  have hevery : (session.run steps).2.store.Every fun db => g.Installed db ∧ True := by
    refine Session.every_run ⟨⟨hstart.1, trivial⟩, fun w hw => ⟨hstart.2 w hw, trivial⟩⟩ ?_
    intro x hx
    rcases hsteps x hx with hx | hx
    · rw [hx]
      exact maintains_apart hosts hosts' hapart fun _ => True
    · rw [hx]
      exact maintains_apart hosts' hosts hback fun _ => True
  have hrows : ∀ db, g.Installed db → ∀ r ∈ h.schema.rows db, r ∉ h'.schema.rows db := by
    rintro db ⟨t, ht, hd⟩ r hr hr'
    rw [rows_of_table? ((hosts t hd).cohabits.table ▸ ht)] at hr
    rw [rows_of_table? ((hosts' t hd).cohabits.table ▸ ht)] at hr'
    have hnot := hapart t hd r (List.mem_filter.1 hr).2
    rw [(List.mem_filter.1 hr').2] at hnot
    cases hnot
  refine ⟨⟨hevery.1.1, hrows _ hevery.1.1⟩, fun w hw => ?_⟩
  exact ⟨(hevery.2 w hw).1, hrows _ (hevery.2 w hw).1⟩

end Schema

/-- Two trees of one table are apart unless their keys come to one value in the column that tells
them apart; keys of one kind never do. -/
theorem partitions_are_apart_iff {g : Schema} {h h' : Handle} {p p' q : Partition}
    (hs : h.schema.Sound) (hs' : h'.schema.Sound) (hc : h.schema.Cohabits h'.schema)
    (hg : g = h.schema ∨ g = h'.schema) (hp : h.schema.partition = some p)
    (hp' : h'.schema.partition = some p') (hq : g.partition = some q) (hne : p'.key ≠ p.key) :
    (g.KeepsApart h h' ↔ ¬p.key.Meets (Table.partitionColumn q).affinity p'.key) ∧
      ((Table.partitionColumn p').affinity = (Table.partitionColumn p).affinity →
        g.KeepsApart h h') := by
  have hosts := fun t hd => (hc.hosts (t := t) hs hs' hg hd).1
  have hosts' := fun t hd => (hc.hosts (t := t) hs hs' hg hd).2
  have hiff : g.KeepsApart h h' ↔ ¬p.key.Meets (Table.partitionColumn q).affinity p'.key := by
    constructor
    · intro hkept hmeets
      -- the first row of one tree would be a row of the other
      have hhost := hosts _ g.declares_ofSchema
      have hhost' := hosts' _ g.declares_ofSchema
      let row := (Table.ofSchema g).newRow 1 (h.schema.entry none ⟨1, 2⟩ none [])
      have hrow : h.schema.inScope (Table.ofSchema g) row = true :=
        hhost.inScope_newRow none ⟨1, 2⟩ none [] 1
      have hcell := hhost.cell_newRow hp hq none ⟨1, 2⟩ none [] 1
      have hname : p'.column = p.column := by
        have hcolumn := hc.column
        rw [hp, hp'] at hcolumn
        exact Option.some.inj hcolumn
      have hrow' : h'.schema.inScope (Table.ofSchema g) row = true := by
        simp only [Schema.inScope, hp', Option.all_some, hname, row, hcell]
        exact (Cell.equals_stored_iff (Table.affinity_partitionColumn q) _ _).2 hmeets
      have hnot := hkept.there.disjoint _ g.declares_ofSchema row hrow
      rw [hrow'] at hnot
      cases hnot
    · intro hmeets
      exact Schema.keepsApart hosts hosts' fun t hd r hr =>
        (hosts t hd).disjoint (hosts' t hd) hp hp' hq hmeets hr
  refine ⟨hiff, fun haffinity => hiff.2 fun hmeets => hne ?_⟩
  have hkind : (Table.partitionColumn q).affinity = (Table.partitionColumn p).affinity := by
    rcases hg with rfl | rfl
    · rw [Option.some.inj (hq.symm.trans hp)]
    · rw [Option.some.inj (hq.symm.trans hp'), haffinity]
  exact Partition.eq_of_meets haffinity (hkind ▸ hmeets)

def wardHandle (connection : Nat) (key : PartitionKey) : Handle :=
  ⟨connection, ⟨⟨"n"⟩, ⟨"id"⟩, ⟨"l"⟩, ⟨"r"⟩, ⟨"parent"⟩, some ⟨⟨"part"⟩, key⟩, [], .left,
    .autoIncrement⟩⟩

def wardMapping (key : PartitionKey) : Mapping := { table := "n", partition := some ⟨"part", key⟩ }

theorem partitions_are_apart_seven_north :
    let h := wardHandle 0 (.integer 7)
    let h' := wardHandle 1 (.text "north")
    (h.schema.KeepsApart h h' ∧ h'.schema.KeepsApart h h') ∧
      h.schema.KeepsApart h (wardHandle 1 (.integer 8)) := by
  intro h h'
  have hs : ∀ c key, (wardHandle c key).schema.Sound := by
    intro c key
    refine ⟨?_, List.nodup_nil, by simp [Schema.IsCovered, wardHandle], ?_⟩
    · cases key with
      | integer n =>
        exact (by decide +kernel :
          (Table.ofSchema (wardHandle 0 (.integer 0)).schema).duplicate? = none)
      | text s =>
        exact (by decide +kernel :
          (Table.ofSchema (wardHandle 0 (.text "")).schema).duplicate? = none)
    · rintro name ⟨⟩
  have hc : ∀ c key, h.schema.Cohabits (wardHandle c key).schema :=
    fun _ _ => ⟨rfl, rfl, rfl, rfl, rfl, rfl, rfl⟩
  have hfirst : h.schema.KeepsApart h h' :=
    (partitions_are_apart_iff (hs 0 _) (hs 1 _) (hc 1 _) (.inl rfl) rfl rfl rfl (by decide)).1.2
      (by decide +kernel)
  have hsecond : h'.schema.KeepsApart h h' :=
    (partitions_are_apart_iff (hs 0 _) (hs 1 _) (hc 1 _) (.inr rfl) rfl rfl rfl (by decide)).1.2
      (by decide +kernel)
  refine ⟨⟨hfirst, hsecond⟩, ?_⟩
  exact (partitions_are_apart_iff (hs 0 _) (hs 1 _) (hc 1 _) (.inl rfl) rfl rfl rfl
    (by decide)).2 rfl

/-- A number and its text are different keys of one tree, whichever handle made the table. -/
theorem number_and_its_text_share_a_tree :
    let h := wardHandle 0 (.integer 7)
    let h' := wardHandle 1 (.text "7")
    (wardMapping (.integer 7)).validate = .ok h.schema ∧
      (wardMapping (.text "7")).validate = .ok h'.schema ∧
      ∀ installed ∈ [((h.ensure {}).2), ((h'.ensure {}).2)],
        let planted := (h.edit installed (.add [] .root)).store
        h'.size installed = .ok 0 ∧ h'.size planted = .ok 1 ∧
          h.size (h'.edit planted (.remove 1)).store = .ok 0 := by
  decide +kernel

end NestedSet
