import Mathlib
import NestedSet.Handle
import NestedSet.Proofs.Serving
import NestedSet.Proofs.Validation

/-!
# Opened handles and installed schemas

A mapping that passes its check, and whose table could be created, is a sound
schema. What an installation creates on an empty database is an empty table of
the schema and an empty sequence, and no installation touches what is there.
-/

set_option autoImplicit false

namespace NestedSet

/-! ### What the check of a mapping ensures -/

namespace Mapping

theorem validate_ok {m : Mapping} {s : Schema} (h : m.validate = .ok s) :
    (s.fields.map (·.name)).Nodup ∧ ∀ name, s.ids = .sequence name → name.key ≠ s.table.key := by
  obtain ⟨hm, hs⟩ := validate_eq_ok_iff.1 h
  refine ⟨?_, ?_⟩
  · rw [hs.fields, names_resolved]
    exact hm.fields
  · intro name hname
    have hids : m.ids = .sequence name.name := by
      have hresolved := hs.ids.symm.trans hname
      cases hm : m.ids <;> rw [hm] at hresolved <;> cases hresolved
      rfl
    rw [hs.table, Identifier.key, Identifier.key, Text.fold_eq, Text.fold_eq]
    exact (hm.sequence name.name hids).2

end Mapping

/-! ### What an installation creates -/

namespace Database

variable {db db' : Database}

theorem createTable_eq_ok_iff {t : Table} : createTable t db = .ok ((), db') ↔
    isReserved t.key = false ∧ (db.hasTable t.key = true ∧ db' = db ∨
      db.hasTable t.key = false ∧ db.hasIndex t.key = false ∧ t.duplicate? = none ∧
        db' = { db with tables := db.tables ++ [t] }) := by
  have hkey : t.name.key = t.key := rfl
  unfold createTable vacancy
  rw [hkey, @eq_comm _ db', @eq_comm _ db']
  cases isReserved t.key with
  | true => simp [bind, Except.bind]
  | false =>
    cases db.hasTable t.key with
    | true => simp [bind, Except.bind, pure, Except.pure]
    | false =>
      cases db.hasIndex t.key with
      | true => simp [bind, Except.bind]
      | false =>
        cases t.duplicate? <;>
          simp [bind, Except.bind, pure, Except.pure, throw, throwThe, MonadExceptOf.throw]

theorem createIndex_eq_ok_iff {i : Index} : createIndex i db = .ok ((), db') ↔
    isReserved (Text.fold i.name) = false ∧ db.hasTable (Text.fold i.name) = false ∧
      (db.hasIndex (Text.fold i.name) = true ∧ db' = db ∨
        db.hasIndex (Text.fold i.name) = false ∧
          db' = { db with indexes := db.indexes ++ [i] }) := by
  cases hreserved : isReserved (Text.fold i.name) <;>
    cases htable : db.hasTable (Text.fold i.name) <;>
    cases hindex : db.hasIndex (Text.fold i.name) <;>
    simp [createIndex, hreserved, htable, hindex, @eq_comm _ db']

theorem createTable_ok {t : Table} (h : createTable t db = .ok ((), db')) :
    (db.hasTable t.name.key = true ∧ db' = db) ∨
      (db.hasTable t.name.key = false ∧ t.duplicate? = none ∧
        db' = { db with tables := db.tables ++ [t] }) :=
  (createTable_eq_ok_iff.1 h).2.imp_right fun ⟨hhas, _, hdistinct, heq⟩ => ⟨hhas, hdistinct, heq⟩

theorem tables_createIndex {i : Index} (h : createIndex i db = .ok ((), db')) :
    db'.tables = db.tables := by
  obtain ⟨-, -, ⟨-, rfl⟩ | ⟨-, rfl⟩⟩ := createIndex_eq_ok_iff.1 h <;> rfl

theorem script_preserves {p : Database → Prop} {statements : List (Statement Unit)}
    (hp : ∀ statement ∈ statements, ∀ db db', p db → statement db = .ok ((), db') → p db')
    (h : p db) : p (script statements db).2 := by
  induction statements generalizing db with
  | nil => exact h
  | cons statement rest ih =>
    rw [List.forall_mem_cons] at hp
    unfold script
    split
    · rename_i db₁ hok
      exact ih hp.2 (hp.1 db db₁ h hok)
    · exact h

theorem script_cons_ok {statement : Statement Unit} {rest : List (Statement Unit)}
    (h : script (statement :: rest) db = (.ok (), db')) :
    ∃ db₁, statement db = .ok ((), db₁) ∧ script rest db₁ = (.ok (), db') := by
  unfold script at h
  split at h
  · rename_i db₁ hok
    exact ⟨db₁, hok, h⟩
  · cases h

theorem script_append_ok {statements more : List (Statement Unit)}
    (h : script (statements ++ more) db = (.ok (), db')) :
    ∃ db₁, script statements db = (.ok (), db₁) ∧ script more db₁ = (.ok (), db') := by
  induction statements generalizing db with
  | nil => exact ⟨db, rfl, h⟩
  | cons statement rest ih =>
    obtain ⟨db₁, hok, hrest⟩ := script_cons_ok h
    obtain ⟨db₂, hscript, hmore⟩ := ih hrest
    refine ⟨db₂, ?_, hmore⟩
    rw [script, hok]
    exact hscript

theorem table?_createTable {t t' : Table} {name : Identifier} (hname : db.table? name = some t')
    (h : createTable t db = .ok ((), db')) : db'.table? name = some t' := by
  rcases createTable_ok h with ⟨-, rfl⟩ | ⟨-, -, rfl⟩
  · exact hname
  · unfold table? at hname ⊢
    rw [List.find?_append, hname]
    rfl

theorem table?_install {s : Schema} {t : Table} {name : Identifier}
    (h : db.table? name = some t) : (install s db).2.table? name = some t := by
  refine script_preserves (p := fun db => db.table? name = some t) ?_ h
  intro statement hstatement db db' htable hok
  simp only [installation, List.mem_append, List.mem_singleton, List.mem_map] at hstatement
  rcases hstatement with (rfl | ⟨x, -, rfl⟩) | hsequence
  · exact table?_createTable htable hok
  · rw [table?, tables_createIndex hok]
    exact htable
  · cases hids : s.ids with
    | autoIncrement =>
      rw [hids] at hsequence
      cases hsequence
    | sequence sequence =>
      rw [hids, List.mem_singleton] at hsequence
      subst hsequence
      exact table?_createTable htable hok

/-- What an installation leaves of an empty database. -/
theorem install_empty {s : Schema} (hids : ∀ name, s.ids = .sequence name → name.key ≠ s.table.key)
    (h : install s {} = (.ok (), db)) :
    (Table.ofSchema s).duplicate? = none ∧ db.table? s.table = some (Table.ofSchema s) ∧
      ∀ name, s.ids = .sequence name → db.table? name = some (.ofSequence name) := by
  obtain ⟨db₂, hscript, hsequence⟩ := script_append_ok h
  obtain ⟨db₁, htable, hindexes⟩ := script_cons_ok hscript
  obtain ⟨hhas, -⟩ | ⟨-, hdistinct, rfl⟩ := createTable_ok htable
  · cases hhas
  have htables : db₂.tables = [Table.ofSchema s] := by
    have hlast : (script _ _).2 = db₂ := congrArg Prod.snd hindexes
    rw [← hlast]
    refine script_preserves (p := fun db => db.tables = [Table.ofSchema s]) ?_ rfl
    intro statement hstatement db db' htables hok
    obtain ⟨x, -, rfl⟩ := List.mem_map.1 hstatement
    exact (tables_createIndex hok).trans htables
  have hkey : (Table.ofSchema s).key = s.table.key := rfl
  have hfound : db₂.table? s.table = some (Table.ofSchema s) := by
    rw [table?, htables]
    simp [hkey]
  cases hs : s.ids with
  | autoIncrement =>
    rw [hs] at hsequence
    cases hsequence
    exact ⟨hdistinct, hfound, by simp⟩
  | sequence name =>
    rw [hs] at hsequence
    obtain ⟨db₃, hcreate, hdone⟩ := script_cons_ok hsequence
    cases hdone
    refine ⟨hdistinct, table?_createTable hfound hcreate, ?_⟩
    rintro _ ⟨⟩
    have hne : (Table.ofSchema s).key ≠ name.key := fun he => hids name hs he.symm
    have hkey' : (Table.ofSequence name).key = name.key := rfl
    rcases createTable_ok hcreate with ⟨hhas, -⟩ | ⟨-, -, rfl⟩
    · rw [hasTable, htables] at hhas
      simp only [List.any_cons, List.any_nil, Bool.or_false, beq_iff_eq] at hhas
      exact absurd hhas hne
    · rw [table?, htables, List.cons_append, List.nil_append,
        List.find?_cons_of_neg (by simpa using hne)]
      simp [hkey']

end Database

end NestedSet
