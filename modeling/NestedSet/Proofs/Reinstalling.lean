import Mathlib
import NestedSet.Proofs.Atomicity
import NestedSet.Proofs.Declaring
import NestedSet.Proofs.Installing

/-!
# What an installation leaves

An installation creates what is missing of a schema, one object after another.
No creation undoes one before it, so a schema that was installed is found
complete by whoever installs it again. The statements are in no transaction:
where one of them is refused, what the earlier ones created stays.
-/

set_option autoImplicit false

namespace NestedSet

open Database

/-- A table or an index that is created where it is missing. -/
inductive Creation where
  | table (t : Table)
  | index (i : Index)
  deriving DecidableEq, Repr

namespace Creation

def statement : Creation → Statement Unit
  | table t => createTable t
  | index i => createIndex i

def slot : Creation → String ⊕ String
  | table t => .inl t.key
  | index i => .inr (Text.fold i.name)

def isIn (db : Database) (c : Creation) : Bool :=
  match c with
  | table t => db.hasTable t.key
  | index i => db.hasIndex (Text.fold i.name)

def addTo (db : Database) : Creation → Database
  | table t => { db with tables := db.tables ++ [t] }
  | index i => { db with indexes := db.indexes ++ [i] }

/-- Those of the objects that are not there. -/
def missing (db : Database) (cs : List Creation) : List Creation := cs.filter fun c => !c.isIn db

end Creation

def Database.extended (db : Database) (cs : List Creation) : Database := cs.foldl Creation.addTo db

def Schema.creations (s : Schema) : List Creation :=
  [.table (.ofSchema s)] ++
  (s.indexes.map fun (name, definition) => .index ⟨name, definition⟩) ++
  (match s.ids with
    | .autoIncrement => []
    | .sequence name => [.table (.ofSequence name)])

theorem Database.installation_eq (s : Schema) :
    installation s = s.creations.map Creation.statement := by
  unfold installation Schema.creations
  cases s.ids <;> simp [Creation.statement]

namespace Creation

variable {c o : Creation} {cs : List Creation} {db db' : Database} {refusal : Refusal}

/-! ### One creation -/

theorem hasTable_addTo (c : Creation) (db : Database) (key : String) :
    (c.addTo db).hasTable key = true ↔ db.hasTable key = true ∨ c.slot = .inl key := by
  cases c <;> simp [addTo, slot, hasTable]

theorem hasIndex_addTo (c : Creation) (db : Database) (key : String) :
    (c.addTo db).hasIndex key = true ↔ db.hasIndex key = true ∨ c.slot = .inr key := by
  cases c <;> simp [addTo, slot, hasIndex]

theorem isIn_addTo (c o : Creation) (db : Database) :
    o.isIn (c.addTo db) = true ↔ o.isIn db = true ∨ c.slot = o.slot := by
  cases o with
  | table t => exact hasTable_addTo c db t.key
  | index i => exact hasIndex_addTo c db (Text.fold i.name)

theorem addTo_ne (c : Creation) (db : Database) : c.addTo db ≠ db := by
  cases c with
  | table t =>
    intro heq
    have hlength := congrArg (·.tables.length) heq
    simp [addTo] at hlength
  | index i =>
    intro heq
    have hlength := congrArg (·.indexes.length) heq
    simp [addTo] at hlength

theorem statement_index (i : Index) : (index i).statement = createIndex i := rfl

theorem statement_ok (h : c.statement db = .ok ((), db')) :
    c.isIn db = true ∧ db' = db ∨ c.isIn db = false ∧ db' = c.addTo db := by
  cases c with
  | table t => exact (createTable_ok h).imp_right fun ⟨hhas, _, heq⟩ => ⟨hhas, heq⟩
  | index i =>
    rw [statement_index] at h
    exact (createIndex_eq_ok_iff.1 h).2.2

theorem statement_again (h : c.statement db = .ok ((), db')) :
    c.statement db' = .ok ((), db') := by
  obtain ⟨-, rfl⟩ | ⟨-, rfl⟩ := statement_ok h
  · exact h
  cases c with
  | table t =>
    have hreserved := (createTable_eq_ok_iff.1 h).1
    exact createTable_eq_ok_iff.2 ⟨hreserved, .inl ⟨(hasTable_addTo _ _ _).2 (.inr rfl), rfl⟩⟩
  | index i =>
    rw [statement_index] at h ⊢
    obtain ⟨hreserved, htable, -⟩ := createIndex_eq_ok_iff.1 h
    exact createIndex_eq_ok_iff.2
      ⟨hreserved, htable, .inl ⟨(hasIndex_addTo _ _ _).2 (.inr rfl), rfl⟩⟩

theorem statement_after (h : c.statement db = .ok ((), db))
    (ho : o.statement db = .ok ((), db')) : c.statement db' = .ok ((), db') := by
  have hin : c.isIn db = true :=
    (statement_ok h).elim And.left fun hnew => absurd hnew.2.symm (addTo_ne c db)
  obtain ⟨-, rfl⟩ | ⟨hout, rfl⟩ := statement_ok ho
  · exact h
  have hstill : c.isIn (o.addTo db) = true := (isIn_addTo o c db).2 (.inl hin)
  cases c with
  | table t =>
    exact createTable_eq_ok_iff.2 ⟨(createTable_eq_ok_iff.1 h).1, .inl ⟨hstill, rfl⟩⟩
  | index i =>
    rw [statement_index] at h ⊢
    obtain ⟨hreserved, htable, -⟩ := createIndex_eq_ok_iff.1 h
    have hfree : o.slot ≠ .inl (Text.fold i.name) := by
      cases o with
      | index j => exact Sum.inr_ne_inl
      | table t =>
        obtain ⟨-, ⟨hhas, -⟩ | ⟨-, hindex, -⟩⟩ := createTable_eq_ok_iff.1 ho
        · exact absurd hhas (Bool.eq_false_iff.1 hout)
        · intro heq
          rw [Sum.inl.inj heq] at hindex
          exact absurd hin (Bool.eq_false_iff.1 hindex)
    have hnone : (o.addTo db).hasTable (Text.fold i.name) = false := by
      rw [Bool.eq_false_iff, Ne, hasTable_addTo]
      exact not_or.2 ⟨Bool.eq_false_iff.1 htable, hfree⟩
    exact createIndex_eq_ok_iff.2 ⟨hreserved, hnone, .inl ⟨hstill, rfl⟩⟩

/-! ### Runs of creations -/

theorem script_of_settled (h : ∀ c ∈ cs, c.statement db = .ok ((), db)) :
    script (cs.map statement) db = (.ok (), db) := by
  induction cs with
  | nil => rfl
  | cons c cs ih =>
    obtain ⟨hc, hcs⟩ := List.forall_mem_cons.1 h
    rw [List.map_cons, script, hc]
    exact ih hcs

theorem settled_of_script (h : script (cs.map statement) db = (.ok (), db')) :
    ∀ c ∈ cs, c.statement db' = .ok ((), db') := by
  induction cs generalizing db with
  | nil => exact fun _ hc => absurd hc List.not_mem_nil
  | cons c cs ih =>
    obtain ⟨db₁, hc, hcs⟩ := script_cons_ok h
    refine List.forall_mem_cons.2 ⟨?_, ih hcs⟩
    have hlast : (script (cs.map statement) db₁).2 = db' := congrArg Prod.snd hcs
    rw [← hlast]
    refine script_preserves (p := fun db => c.statement db = .ok ((), db)) ?_ (statement_again hc)
    intro _ hstatement db db' hsettled hok
    obtain ⟨o, -, rfl⟩ := List.mem_map.1 hstatement
    exact statement_after hsettled hok

theorem script_error (h : script (cs.map statement) db = (.error refusal, db')) :
    ∃ before c after, cs = before ++ c :: after ∧
      script (before.map statement) db = (.ok (), db') ∧ c.statement db' = .error refusal := by
  induction cs generalizing db with
  | nil => cases h
  | cons c cs ih =>
    rw [List.map_cons, script] at h
    cases hc : c.statement db with
    | error e =>
      rw [hc] at h
      cases h
      exact ⟨[], c, cs, rfl, rfl, hc⟩
    | ok p =>
      obtain ⟨⟨⟩, db₁⟩ := p
      rw [hc] at h
      obtain ⟨before, o, after, rfl, hbefore, ho⟩ := ih h
      refine ⟨c :: before, o, after, rfl, ?_, ho⟩
      rw [List.map_cons, script, hc]
      exact hbefore

/-- Objects of different names do not hide each other, so those created are those that were
missing at the outset. -/
theorem script_ok (hcs : (cs.map slot).Nodup) (h : script (cs.map statement) db = (.ok (), db')) :
    db' = db.extended (missing db cs) := by
  induction cs generalizing db with
  | nil =>
    cases h
    rfl
  | cons c cs ih =>
    obtain ⟨hc, hcs⟩ := List.nodup_cons.1 hcs
    obtain ⟨db₁, hstatement, hrest⟩ := script_cons_ok h
    rw [ih hcs hrest]
    obtain ⟨hin, rfl⟩ | ⟨hout, rfl⟩ := statement_ok hstatement
    · simp [missing, hin]
    · have hsame : missing (c.addTo db) cs = missing db cs := by
        refine List.filter_congr fun o ho => ?_
        have hne : c.slot ≠ o.slot := fun heq => hc (heq ▸ List.mem_map_of_mem ho)
        have hstill : o.isIn (c.addTo db) = o.isIn db := by
          rw [Bool.eq_iff_iff, isIn_addTo, or_iff_left hne]
        rw [hstill]
      rw [hsame]
      simp [missing, hout, extended]

theorem extended_eq_self_iff : db.extended cs = db ↔ cs = [] := by
  have hsize : ∀ db : Database, (db.extended cs).tables.length + (db.extended cs).indexes.length =
      db.tables.length + db.indexes.length + cs.length := by
    induction cs with
    | nil => exact fun _ => rfl
    | cons c cs ih =>
      intro db
      rw [extended, List.foldl_cons, ← extended, ih]
      cases c <;> simp [addTo] <;> omega
  constructor
  · intro heq
    have hlength := hsize db
    rw [heq] at hlength
    exact List.length_eq_zero_iff.1 (by omega)
  · rintro rfl
    rfl

theorem missing_eq_nil_iff : missing db cs = [] ↔ ∀ c ∈ cs, c.isIn db = true := by
  simp [missing, List.filter_eq_nil_iff]

end Creation

open Creation

/-- The objects of a checked schema do not hide each other: an index may have the name of the
sequence, but not the kind. -/
theorem Mapping.nodup_slots {m : Mapping} {s : Schema} (h : m.validate = .ok s) :
    (s.creations.map slot).Nodup := by
  have hindexes : ((s.indexes.map fun i => Text.fold i.1).map Sum.inr).Nodup :=
    (List.nodup_cons.1 (nodup_indexNames s)).2.map (Sum.inr_injective (α := String))
  have htable : slot (.table (.ofSchema s)) = .inl s.table.key := rfl
  have hindex : (s.indexes.map fun i => slot (.index ⟨i.1, i.2⟩)) =
      (s.indexes.map fun i => Text.fold i.1).map Sum.inr := by simp [slot]
  cases hids : s.ids with
  | autoIncrement =>
    have hslots : s.creations.map slot =
        .inl s.table.key :: (s.indexes.map fun i => Text.fold i.1).map .inr := by
      simp [Schema.creations, hids, ← hindex, htable]
    rw [hslots, List.nodup_cons]
    exact ⟨by simp, hindexes⟩
  | sequence name =>
    have hsequence : slot (.table (.ofSequence name)) = .inl name.key := rfl
    have hslots : s.creations.map slot =
        .inl s.table.key :: (s.indexes.map fun i => Text.fold i.1).map .inr ++ [.inl name.key] := by
      simp [Schema.creations, hids, ← hindex, htable, hsequence]
    have hne : s.table.key ≠ name.key := fun heq => (validate_ok h).2 name hids heq.symm
    rw [hslots, List.nodup_append, List.nodup_cons]
    refine ⟨⟨by simp, hindexes⟩, List.nodup_singleton _, ?_⟩
    simp [hne]

theorem Database.install_eq (s : Schema) (db : Database) :
    install s db = script (s.creations.map statement) db := by
  rw [install, installation_eq]

/-! ### Installing through a handle -/

namespace Handle

variable {h : Handle} {s s' : Store}

theorem store_ensure_of_locked (hw : s.mayWrite h.connection = false) : (h.ensure s).2 = s := by
  simp only [ensure, hw, Bool.or_false, decide_eq_true_eq]
  split
  next heq => rw [heq, Store.replace_view]
  next => rfl

theorem ensure_ok (he : h.ensure s = (.ok (), s')) :
    ∃ db, install h.schema (s.view h.connection) = (.ok (), db) ∧
      s' = s.replace h.connection db := by
  unfold ensure at he
  rcases hinstall : install h.schema (s.view h.connection) with ⟨answer, db⟩
  simp only [hinstall] at he
  split at he
  · cases answer with
    | error refusal => cases he
    | ok =>
      cases he
      exact ⟨db, rfl, rfl⟩
  · cases he

theorem ensure_error {e : TreeError} (hw : s.mayWrite h.connection = true)
    (he : h.ensure s = (.error e, s')) :
    ∃ refusal db, install h.schema (s.view h.connection) = (.error refusal, db) ∧
      e = .backend .install refusal ∧ s' = s.replace h.connection db := by
  unfold ensure at he
  rcases hinstall : install h.schema (s.view h.connection) with ⟨answer, db⟩
  simp only [hinstall, hw, Bool.or_true, if_true] at he
  cases answer with
  | ok => cases he
  | error refusal =>
    cases he
    exact ⟨refusal, db, rfl, rfl, rfl⟩

theorem ensure_of_settled
    (hc : ∀ c ∈ h.schema.creations, c.statement (s.view h.connection) =
      .ok ((), s.view h.connection)) : h.ensure s = (.ok (), s) := by
  have hinstall : install h.schema (s.view h.connection) = (.ok (), s.view h.connection) := by
    rw [install_eq]
    exact script_of_settled hc
  simp [ensure, hinstall, Store.replace_view, Except.mapError]

end Handle

/-- Installing a checked schema adds the objects that are missing, up to the first one refused,
and changes nothing else. A refusal leaves the store as it was only if nothing was missing before
the object refused, or if somebody else was writing. After a success, installing the schema again
succeeds and changes nothing, through any handle that sees the same database. -/
theorem installations_stop_where_refused {m : Mapping} {h : Handle}
    (hm : m.validate = .ok h.schema) {s s' : Store} {answer : Except TreeError Unit}
    (he : h.ensure s = (answer, s')) :
    (s.mayWrite h.connection = false → s' = s) ∧
    (∀ e, answer = .error e → s.mayWrite h.connection = true →
      ∃ before c after refusal, h.schema.creations = before ++ c :: after ∧
        e = .backend .install refusal ∧
        s' = s.replace h.connection
          ((s.view h.connection).extended (missing (s.view h.connection) before)) ∧
        c.statement (s'.view h.connection) = .error refusal ∧
        (s' = s ↔ ∀ b ∈ before, b.isIn (s.view h.connection) = true)) ∧
    (answer = .ok () →
      s' = s.replace h.connection
        ((s.view h.connection).extended (missing (s.view h.connection) h.schema.creations)) ∧
      ∀ h' : Handle, h'.schema = h.schema →
        s'.view h'.connection = s'.view h.connection → h'.ensure s' = (.ok (), s')) := by
  have hslots := Mapping.nodup_slots hm
  refine ⟨?locked, ?refused, ?installed⟩
  case locked =>
    intro hw
    rw [← Handle.store_ensure_of_locked hw, he]
  case refused =>
    rintro e rfl hw
    obtain ⟨refusal, db, hinstall, rfl, rfl⟩ := Handle.ensure_error hw he
    rw [install_eq] at hinstall
    obtain ⟨before, c, after, hsplit, hbefore, hc⟩ := script_error hinstall
    rw [hsplit, List.map_append] at hslots
    obtain rfl := script_ok (List.nodup_append.1 hslots).1 hbefore
    refine ⟨before, c, after, refusal, hsplit, rfl, rfl, by rwa [Store.view_replace], ?_⟩
    rw [← missing_eq_nil_iff]
    constructor
    · intro heq
      have hview := congrArg (·.view h.connection) heq
      simp only [Store.view_replace] at hview
      exact extended_eq_self_iff.1 hview
    · intro hnone
      rw [hnone]
      exact Store.replace_view _ _
  case installed =>
    rintro rfl
    obtain ⟨db, hinstall, rfl⟩ := Handle.ensure_ok he
    rw [install_eq] at hinstall
    have hsettled := settled_of_script hinstall
    refine ⟨by rw [script_ok hslots hinstall], fun h' hschema hview => ?_⟩
    apply Handle.ensure_of_settled
    rw [hschema, hview, Store.view_replace]
    exact hsettled

/-- A schema whose sequence has a name that the database keeps for itself, which the check of a
mapping does not look for. -/
def reservedMapping : Mapping := { table := "t", ids := .sequence "sqlite_q" }

def reservedHandle : Handle :=
  ⟨0, ⟨⟨"t"⟩, ⟨"id"⟩, ⟨"l"⟩, ⟨"r"⟩, ⟨"parent"⟩, none, [], .left, .sequence ⟨"sqlite_q"⟩⟩⟩

def drawingMapping : Mapping := { table := "t", ids := .sequence "q" }

def drawingHandle (connection : Nat) : Handle :=
  ⟨connection, { reservedHandle.schema with ids := .sequence ⟨"q"⟩ }⟩

/-- The one is refused on an empty database, the other is installed again by everybody. -/
theorem installations_stop_where_refused_reserved :
    (∃ before c after refusal, reservedHandle.schema.creations = before ++ c :: after ∧
      (reservedHandle.ensure {}).1 = .error (.backend .install refusal) ∧
      (reservedHandle.ensure {}).2 = ⟨({} : Database).extended (missing {} before), none⟩ ∧
      c.statement (reservedHandle.ensure {}).2.committed = .error refusal) ∧
    ∀ connection, (drawingHandle connection).ensure ((drawingHandle 0).ensure {}).2 =
      (.ok (), ((drawingHandle 0).ensure {}).2) := by
  constructor
  · have hm : reservedMapping.validate = .ok reservedHandle.schema := by decide +kernel
    have hanswer : (reservedHandle.ensure {}).1 =
        .error (.backend .install (.reservedName "sqlite_q")) := by decide +kernel
    obtain ⟨before, c, after, refusal, hsplit, heq, hstore, hc, -⟩ :=
      (installations_stop_where_refused hm (s := {}) rfl).2.1 _ hanswer rfl
    exact ⟨before, c, after, refusal, hsplit, hanswer.trans (congrArg _ heq), hstore, hc⟩
  · intro connection
    have hm : drawingMapping.validate = .ok (drawingHandle 0).schema := by decide +kernel
    have hanswer : ((drawingHandle 0).ensure {}).1 = .ok () := by decide +kernel
    obtain ⟨hstore, hagain⟩ := (installations_stop_where_refused hm (s := {}) rfl).2.2 hanswer
    refine hagain (drawingHandle connection) rfl ?_
    rw [hstore]
    rfl

/-- The refusal of a sequence does not undo the creation of the table it would serve, nor of the
indexes. -/
theorem refused_sequence_leaves_its_table :
    let installed := reservedHandle.ensure {}
    reservedMapping.validate = .ok reservedHandle.schema ∧
      installed.1 = .error (.backend .install (.reservedName "sqlite_q")) ∧
      installed.2.committed.tables = [Table.ofSchema reservedHandle.schema] ∧
      installed.2.committed.indexes.map (·.name) = ["t_left_idx", "t_right_idx", "t_parent_idx"] ∧
      installed.2 ≠ {} := by
  decide +kernel

end NestedSet
