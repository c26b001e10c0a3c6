import Mathlib
import NestedSet.Proofs.Absence
import NestedSet.Proofs.Offering
import NestedSet.Proofs.Refinement

/-!
# Partitions keep to themselves

Many trees share one table, all of them numbered from 1. What is done through
a handle leaves the rows of the other partitions exactly as they are, and it
depends on none of them: not on their markers, not on their ids, not on
whether they are trees at all. Only the id that is next is common to all.
-/

set_option autoImplicit false

namespace NestedSet

namespace Schema

variable {s g : Schema}

theorem Akin.maintains_rows (ha : g.Akin s) (hs : s.Sound) (hp : s.partition ≠ g.partition)
    (rows : List Row) : s.Maintains fun db => g.Installed db ∧ g.rows db = rows := by
  rintro q db a db' hq ⟨hi, hrows⟩ h
  have hback : s.Akin g := ha.of_common (.refl g)
  obtain ⟨-, t, t', ht, hd, ht', hspares⟩ := spares_of_statement hs (ha.installed hi) hq h
  have hfound : db.table? g.table = some t := by rwa [hback.table]
  have hfound' : db'.table? g.table = some t' := by rwa [hback.table]
  refine ⟨⟨t', hfound', hback.declares (hspares.declares hd)⟩, ?_⟩
  rw [← hrows, rows_of_table? hfound, rows_of_table? hfound']
  exact scope_of_spares (hback.apart hs hd hp.symm) hspares

/-- Nothing but the rows themselves stands in the way of a statement. -/
structure Calm (s : Schema) (db : Database) : Prop where
  quiet : db.faults = []
  plain : ∀ c ∈ Table.columnsOf s, c.unique = false
  free : ∀ id, s.Offers db id → id ∉ s.idsTaken db
  room : (s.idsTaken db).length < Table.capacity

end Schema

namespace Handle

/-- An edit answers the same on two databases and leaves the same rows of the tree, in a
transaction of its own and in one that is held. -/
structure GoesAlike (h : Handle) (e : Edit) (db₁ db₂ : Database) : Prop where
  answer : (h.edit ⟨db₂, none⟩ e).answer = (h.edit ⟨db₁, none⟩ e).answer
  rows : h.schema.rows (h.edit ⟨db₂, none⟩ e).store.committed =
    h.schema.rows (h.edit ⟨db₁, none⟩ e).store.committed
  answerWithin : ∀ c₁ c₂, (h.editWithin ⟨c₂, some ⟨h.connection, db₂⟩⟩ e).answer =
    (h.editWithin ⟨c₁, some ⟨h.connection, db₁⟩⟩ e).answer
  rowsWithin : ∀ c₁ c₂,
    h.schema.rows ((h.editWithin ⟨c₂, some ⟨h.connection, db₂⟩⟩ e).store.view h.connection) =
      h.schema.rows ((h.editWithin ⟨c₁, some ⟨h.connection, db₁⟩⟩ e).store.view h.connection)

variable {h : Handle} {db db₁ db₂ : Database} {e : Edit}

/-- Databases that agree on the tree and offer the same id are all one to an edit. -/
theorem goesAlike_of_agreeNext {calm : Prop} (hs : h.schema.Sound)
    (hunique : calm → ∀ c ∈ Table.columnsOf h.schema, c.unique = false)
    (ha : h.schema.AgreeNext calm db₁ db₂) (h₁ : h.Unhindered ⟨db₁, none⟩ [e])
    (h₂ : calm ∨ h.Unhindered ⟨db₂, none⟩ [e]) :
    h.Unhindered ⟨db₂, none⟩ [e] ∧ h.GoesAlike e db₁ db₂ := by
  obtain ⟨answer, db₁', hends⟩ := exists_ends h₁.1
  obtain ⟨db₂', hends', hagree⟩ :=
    e.mirrors hs hunique ha hends (h₂.imp_right fun hu => exists_ends hu.1)
  obtain ⟨hanswer, hstore, -⟩ := edit_of_ends hends
  obtain ⟨hanswer', hstore', hcalls⟩ := edit_of_ends hends'
  refine ⟨⟨hcalls, trivial⟩, ?_, ?_, ?_, ?_⟩
  · rw [hanswer, hanswer']
  · rw [hstore, hstore']
    cases answer with
    | ok a => exact hagree.rows
    | error error => exact ha.rows
  · intro c₁ c₂
    rw [(editWithin_of_ends c₁ hends).1, (editWithin_of_ends c₂ hends').1]
  · intro c₁ c₂
    rw [(editWithin_of_ends c₁ hends).2, (editWithin_of_ends c₂ hends').2]
    simpa [Store.view] using hagree.rows

/-- What it means for a handle that other trees are in the table of its tree. -/
structure Isolated (h : Handle) : Prop where
  /-- Whatever is done through handles on other partitions leaves the rows of this one alone, in
  what was committed and in every draft: succeed or fail, in whatever transactions. -/
  undisturbed : ∀ (rows : List Row) (session : Session) (steps : List (Handle × Command × Mishaps)),
    (∀ x ∈ steps, h.schema.Akin x.1.schema ∧ x.1.schema.Sound ∧
      x.1.schema.partition ≠ h.schema.partition) →
    session.store.Every (fun db => h.schema.Installed db ∧ h.schema.rows db = rows) →
    (session.run steps).2.store.Every fun db => h.schema.Installed db ∧ h.schema.rows db = rows
  /-- An edit that is refused no statement depends on the rows of the tree and the next id. -/
  edits : ∀ (e : Edit) (db₁ db₂ : Database), (∃ t, h.schema.Filed db₁ t) →
    (∃ t, h.schema.Filed db₂ t) → h.schema.rows db₂ = h.schema.rows db₁ →
    (∀ id, h.schema.Offers db₁ id → h.schema.Offers db₂ id) → h.Unhindered ⟨db₁, none⟩ [e] →
    h.schema.Calm db₂ ∨ h.Unhindered ⟨db₂, none⟩ [e] →
    h.Unhindered ⟨db₂, none⟩ [e] ∧ h.GoesAlike e db₁ db₂
  /-- What is read depends on the rows of the tree. -/
  readers : ∀ s₁ s₂ : Store, h.schema.Installed (s₁.view h.connection) →
    h.schema.Installed (s₂.view h.connection) →
    h.schema.rows (s₂.view h.connection) = h.schema.rows (s₁.view h.connection) →
    (∀ {α : Type} (question : List Record → Except TreeError α),
      h.read s₂ question = h.read s₁ question) ∧
    ∀ levels ids, h.children s₂ levels ids = h.children s₁ levels ids
  /-- No reader shows an id that only other partitions have. -/
  hidden : ∀ (store : Store) (id : Int), h.schema.Installed (store.view h.connection) →
    id ∉ h.schema.rowIds (store.view h.connection) → h.Hides store id
  /-- The first such id that an edit looks up is not found. -/
  missing : ∀ (e : Edit) (db : Database) (id : Int), h.schema.Installed db →
    h.Unhindered ⟨db, none⟩ [e] →
    (e.sought h.schema).find? (· ∉ h.schema.rowIds db) = some id →
    (h.edit ⟨db, none⟩ e).answer = .error (.notFound id) ∧
      ∀ c, (h.editWithin ⟨c, some ⟨h.connection, db⟩⟩ e).answer = .error (.notFound id)

end Handle

/-- Partitions of one table are isolated from each other. -/
theorem partitions_are_isolated {h : Handle} (hs : h.schema.Sound) : h.Isolated := by
  refine ⟨?_, ?_, ?_, fun store id hi hid => Handle.hides_of_absent hi hid, ?_⟩
  · intro rows session steps hsteps hstart
    refine Session.every_run hstart fun x hx => ?_
    obtain ⟨ha, hsound, hp⟩ := hsteps x hx
    exact ha.maintains_rows hsound hp rows
  · intro e db₁ db₂ hf₁ hf₂ hrows hnext h₁ h₂
    have hagree : h.schema.AgreeNext (h.schema.Calm db₂) db₁ db₂ :=
      ⟨⟨hf₁, hf₂, hrows, Schema.Calm.quiet⟩, hnext, Schema.Calm.free, Schema.Calm.room⟩
    exact Handle.goesAlike_of_agreeNext hs Schema.Calm.plain hagree h₁ h₂
  · intro s₁ s₂ hi₁ hi₂ hrows
    have hrecords := Schema.records_congr hi₁ hi₂ hrows
    have hread : ∀ {α : Type} (question : List Record → Except TreeError α),
        h.read s₂ question = h.read s₁ question := by
      intro α question
      rw [Handle.read, Handle.read, hrecords]
      rfl
    refine ⟨hread, fun levels ids => ?_⟩
    rw [Handle.children, Handle.children, Schema.collation_congr hi₁ hi₂, hread]
  · intro e db id hi hu hid
    obtain ⟨answer, db', hends⟩ := Handle.exists_ends hu.1
    have hmissing := e.notFound_of_sought hs hi hid hends
    refine ⟨(Handle.edit_of_ends hends).1.trans hmissing, fun c => ?_⟩
    exact (Handle.editWithin_of_ends c hends).1.trans hmissing

/-- A table with a tree of one node in its first partition and one row in its second. -/
def groveTable (stray : Row) : Table :=
  { Table.ofSchema (orchardHandle 0).schema with
    counter := some 2
    rows := [⟨1, [("l", .integer 1), ("r", .integer 2), ("parent", .null), ("part", .integer 0)]⟩,
      stray]
    fits := Nat.le_of_ble_eq_true rfl }

def grove (stray : Row) : Database := { tables := [groveTable stray] }

def strayRoot : Row :=
  ⟨2, [("l", .integer 1), ("r", .integer 2), ("parent", .null), ("part", .integer 1)]⟩

def strayScrap : Row :=
  ⟨2, [("l", .text "x"), ("r", .integer 1), ("parent", .integer 1), ("part", .integer 1)]⟩

theorem partitions_are_isolated_grove :
    let h := orchardHandle 0
    h.Unhindered ⟨grove strayScrap, none⟩ [.add [] (.firstChildOf 1)] ∧
      h.GoesAlike (.add [] (.firstChildOf 1)) (grove strayRoot) (grove strayScrap) ∧
      (h.edit ⟨grove strayRoot, none⟩ (.remove 2)).answer = .error (.notFound 2) ∧
      h.Hides ⟨grove strayRoot, none⟩ 2 ∧
      h.read ⟨grove strayScrap, none⟩ Reading.root = h.read ⟨grove strayRoot, none⟩ Reading.root ∧
      (Session.run ⟨⟨grove strayRoot, none⟩, []⟩
        [(orchardHandle 1, .edit (.add [] (.firstChildOf 2)), [])]).2.store.Every
          fun db => h.schema.Installed db ∧ h.schema.rows db = h.schema.rows (grove strayRoot) := by
  intro h
  have hs : ∀ n, (orchardHandle n).schema.Sound := by
    intro n
    refine ⟨?_, List.nodup_nil, by simp [Schema.IsCovered, orchardHandle], ?_⟩
    · exact (by decide +kernel : (Table.ofSchema (orchardHandle 0).schema).duplicate? = none)
    · rintro name ⟨⟩
  have hfound : ∀ stray, (grove stray).table? h.schema.table = some (groveTable stray) := by
    intro stray
    exact List.find?_cons_of_pos (beq_self_eq_true _)
  have hinstalled : ∀ stray, h.schema.Installed (grove stray) :=
    fun stray => ⟨_, hfound stray, rfl, rfl⟩
  have hfiled : ∀ stray, 1 < stray.id → h.schema.Filed (grove stray) (groveTable stray) := by
    intro stray hlt
    refine ⟨hfound stray, ⟨rfl, rfl⟩, ?_⟩
    simpa [groveTable] using hlt
  have hfirst : h.schema.rows (grove strayScrap) = h.schema.rows (grove strayRoot) := by
    decide +kernel
  have hnext : ∀ id, h.schema.Offers (grove strayRoot) id →
      h.schema.Offers (grove strayScrap) id := by
    rintro id ⟨t, ht, hid⟩
    obtain rfl := Option.some.inj ((hfound strayRoot).symm.trans ht)
    exact ⟨_, hfound strayScrap, hid⟩
  have hcalm : h.schema.Calm (grove strayScrap) := by
    refine ⟨rfl, by decide +kernel, ?_, by decide +kernel⟩
    rintro id ⟨t, ht, hid⟩ htaken
    obtain ⟨r, hr, rfl⟩ := List.mem_map.1 (Schema.idsTaken_of_table? ht ▸ htaken)
    exact absurd (Table.lt_freshId hid r hr) (lt_irrefl _)
  have hu : h.Unhindered ⟨grove strayRoot, none⟩ [.add [] (.firstChildOf 1)] := by decide +kernel
  have hremove : h.Unhindered ⟨grove strayRoot, none⟩ [.remove 2] := by decide +kernel
  have habsent : (2 : Int) ∉ h.schema.rowIds (grove strayRoot) := by decide +kernel
  have hisolated := partitions_are_isolated (hs 0)
  obtain ⟨hu', halike⟩ := hisolated.edits _ _ _ ⟨_, hfiled strayRoot (by decide)⟩
    ⟨_, hfiled strayScrap (by decide)⟩ hfirst hnext hu (.inl hcalm)
  have hmissing :=
    hisolated.missing (.remove 2) _ 2 (hinstalled strayRoot) hremove (by decide +kernel)
  have hreaders := hisolated.readers ⟨grove strayRoot, none⟩ ⟨grove strayScrap, none⟩
    (hinstalled strayRoot) (hinstalled strayScrap) hfirst
  refine ⟨hu', halike, hmissing.1, hisolated.hidden _ 2 (hinstalled strayRoot) habsent,
    hreaders.1 Reading.root, ?_⟩
  refine hisolated.undisturbed _ ⟨⟨grove strayRoot, none⟩, []⟩ _ ?_ ?_
  · rintro x hx
    obtain rfl := List.mem_singleton.1 hx
    exact ⟨⟨rfl, rfl, rfl, rfl, rfl, rfl, rfl⟩, hs 1, by decide⟩
  · exact ⟨⟨hinstalled strayRoot, rfl⟩, by simp⟩

/-- An id of another partition is not looked up where a node is moved to itself. -/
theorem move_to_itself_is_not_looked_up :
    let h := orchardHandle 0
    (2 : Int) ∉ h.schema.rowIds (grove strayRoot) ∧
      (2 : Int) ∈ (orchardHandle 1).schema.rowIds (grove strayRoot) ∧
      h.Unhindered ⟨grove strayRoot, none⟩ [.move 2 (.firstChildOf 2)] ∧
      (h.edit ⟨grove strayRoot, none⟩ (.move 2 (.firstChildOf 2))).answer =
        .ok (.placed .alreadyInPlace) := by
  decide +kernel

end NestedSet
