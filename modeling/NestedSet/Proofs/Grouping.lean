import Mathlib
import NestedSet.Proofs.OwnErrors
import NestedSet.Proofs.Refinement

/-!
# Transactions of many edits

The edits of a list may be put into transactions in any groups. An edit that
fails for a reason of its own is undone where it has a transaction to itself
and merely passed over within a larger one; both come to the same, for it has
written nothing.
-/

set_option autoImplicit false

namespace NestedSet

namespace Session

theorem run_append (s : Session) (steps more : List (Handle × Command × Mishaps)) :
    s.run (steps ++ more) =
      ((s.run steps).1 ++ ((s.run steps).2.run more).1, ((s.run steps).2.run more).2) := by
  induction steps generalizing s with
  | nil => rfl
  | cons x rest ih =>
    obtain ⟨h, command, mishaps⟩ := x
    simp only [List.cons_append, run, ih]

end Session

namespace Handle

def commands (h : Handle) (edits : List Edit) : List (Handle × Command × Mishaps) :=
  edits.map fun e => (h, .edit e, [])

def transaction (h : Handle) (edits : List Edit) : List (Handle × Command × Mishaps) :=
  (h, .begin, []) :: (h.commands edits ++ [(h, .finish .commit, [])])

def EndsAll (h : Handle) :
    Database → List Edit → List (Except TreeError Answer) → Database → Prop
  | db, [], answers, db' => answers = [] ∧ db' = db
  | db, e :: rest, answers, db' => ∃ answer db₁ more,
    (e.procedure h.schema).Ends h.schema db answer db₁ ∧
      (∀ error, answer = .error error → db₁ = db) ∧ h.EndsAll db₁ rest more db' ∧
      answers = answer :: more

variable {h : Handle} {db db₀ db' : Database} {edits : List Edit}
  {answers : List (Except TreeError Answer)}

theorem length_of_endsAll (ha : h.EndsAll db edits answers db') :
    answers.length = edits.length := by
  induction edits generalizing db answers with
  | nil =>
    obtain ⟨rfl, -⟩ := ha
    rfl
  | cons e rest ih =>
    obtain ⟨answer, db₁, more, -, -, hrest, rfl⟩ := ha
    rw [List.length_cons, List.length_cons, ih hrest]

theorem endsAll_append {more : List Edit} (ha : h.EndsAll db (edits ++ more) answers db') :
    ∃ first db₁ second, h.EndsAll db edits first db₁ ∧ h.EndsAll db₁ more second db' ∧
      answers = first ++ second := by
  induction edits generalizing db answers with
  | nil => exact ⟨[], db, answers, ⟨rfl, rfl⟩, ha, rfl⟩
  | cons e rest ih =>
    obtain ⟨answer, db₁, others, he, hsame, hrest, rfl⟩ := ha
    obtain ⟨first, db₂, second, hfirst, hsecond, rfl⟩ := ih hrest
    exact ⟨answer :: first, db₂, second, ⟨answer, db₁, first, he, hsame, hfirst, rfl⟩, hsecond, rfl⟩

theorem edit_of_ends_same {e : Edit} {answer : Except TreeError Answer} {db₁ : Database}
    (he : (e.procedure h.schema).Ends h.schema db answer db₁)
    (hsame : ∀ error, answer = .error error → db₁ = db) :
    (h.edit ⟨db, none⟩ e).answer = answer ∧ (h.edit ⟨db, none⟩ e).store = ⟨db₁, none⟩ := by
  obtain ⟨hanswer, hstore, -⟩ := edit_of_ends he
  refine ⟨hanswer, ?_⟩
  rw [hstore]
  cases answer with
  | ok a => rfl
  | error error => rw [hsame error rfl, ite_self]

theorem exists_endsAll (hs : h.schema.Sound) (hi : h.schema.Installed db)
    (hkeys : (db.tables.map Table.key).Nodup) (hc : h.Unhindered ⟨db, none⟩ edits) :
    ∃ answers db', h.EndsAll db edits answers db' := by
  induction edits generalizing db with
  | nil => exact ⟨[], db, rfl, rfl⟩
  | cons e rest ih =>
    obtain ⟨answer, db₁, he⟩ := exists_ends hc.1
    have hsame : ∀ error, answer = .error error → db₁ = db := by
      rintro error rfl
      exact e.database_of_error (Schema.apart_of_installed hs hi) hkeys
        (fun t ht => .inl (Schema.not_isId_field hs hi t ht)) he
    have hkept := Procedure.ends_preserves
      (I := fun db => h.schema.Installed db ∧ (db.tables.map Table.key).Nodup)
      (e.issues_procedure h.schema)
      (fun q db₂ a db₃ hq hdb hstatement =>
        ⟨Schema.installed_of_statement hs hdb.1 hq hstatement,
          (Schema.spares_of_statement hs hdb.1 hq hstatement).1 ▸ hdb.2⟩) ⟨hi, hkeys⟩ he
    have hrest := hc.2
    rw [(edit_of_ends_same he hsame).2] at hrest
    obtain ⟨more, db', hmore⟩ := ih hkept.1 hkept.2 hrest
    exact ⟨answer :: more, db', answer, db₁, more, he, hsame, hmore, rfl⟩

theorem run_commands (ha : h.EndsAll db edits answers db') :
    Session.run ⟨⟨db, none⟩, []⟩ (h.commands edits) =
      (answers.map .answer, ⟨⟨db', none⟩, []⟩) := by
  induction edits generalizing db answers with
  | nil =>
    obtain ⟨rfl, rfl⟩ := ha
    rfl
  | cons e rest ih =>
    obtain ⟨answer, db₁, more, he, hsame, hrest, rfl⟩ := ha
    obtain ⟨hanswer, hstore⟩ := edit_of_ends_same he hsame
    have hedit : Session.edit ⟨⟨db, none⟩, []⟩ h e [] = h.edit ⟨db, none⟩ e := rfl
    rw [commands, List.map_cons, ← commands]
    simp only [Session.run, Session.perform, hedit, hanswer, hstore, ih hrest, List.map_cons]

theorem run_commands_within (ha : h.EndsAll db edits answers db') :
    Session.run ⟨⟨db₀, some ⟨h.connection, db⟩⟩, [h.connection]⟩ (h.commands edits) =
      (answers.map .answer, ⟨⟨db₀, some ⟨h.connection, db'⟩⟩, [h.connection]⟩) := by
  induction edits generalizing db answers with
  | nil =>
    obtain ⟨rfl, rfl⟩ := ha
    rfl
  | cons e rest ih =>
    obtain ⟨answer, db₁, more, he, -, hrest, rfl⟩ := ha
    obtain ⟨hanswer, hstore⟩ := editWithin_of_ends db₀ he
    rw [commands, List.map_cons, ← commands]
    simp only [Session.run, Session.perform, Session.edit_of_held, hanswer, hstore, ih hrest,
      List.map_cons]

theorem run_transaction (ha : h.EndsAll db edits answers db') :
    Session.run ⟨⟨db, none⟩, []⟩ (h.transaction edits) =
      (.done (.ok ()) :: (answers.map .answer ++ [.done (.ok ())]), ⟨⟨db', none⟩, []⟩) := by
  have hbegin : Session.perform ⟨⟨db, none⟩, []⟩ h .begin [] =
      (.done (.ok ()), ⟨⟨db, some ⟨h.connection, db⟩⟩, [h.connection]⟩, []) := rfl
  have hcommit : Session.perform ⟨⟨db, some ⟨h.connection, db'⟩⟩, [h.connection]⟩ h
      (.finish .commit) [] = (.done (.ok ()), ⟨⟨db', none⟩, []⟩, []) := by
    simp [Session.perform, Session.finish, Ending.close, Store.commit]
  rw [transaction, Session.run, hbegin]
  simp only [Session.run_append, run_commands_within ha, Session.run, hcommit]

theorem run_transactions {groups : List (List Edit)}
    (ha : h.EndsAll db groups.flatten answers db') :
    ∃ parts : List (List (Except TreeError Answer)),
      parts.map List.length = groups.map List.length ∧ answers = parts.flatten ∧
      Session.run ⟨⟨db, none⟩, []⟩ (groups.flatMap h.transaction) =
        (parts.flatMap fun part => .done (.ok ()) :: (part.map .answer ++ [.done (.ok ())]),
          ⟨⟨db', none⟩, []⟩) := by
  induction groups generalizing db answers with
  | nil =>
    obtain ⟨rfl, rfl⟩ := ha
    exact ⟨[], rfl, rfl, rfl⟩
  | cons group rest ih =>
    obtain ⟨first, db₁, second, hfirst, hsecond, rfl⟩ := endsAll_append ha
    obtain ⟨parts, hlengths, rfl, hrun⟩ := ih hsecond
    refine ⟨first :: parts, ?_, rfl, ?_⟩
    · rw [List.map_cons, List.map_cons, hlengths, length_of_endsAll hfirst]
    · simp only [List.flatMap_cons, Session.run_append, run_transaction hfirst, hrun]

end Handle

/-- Edits that are refused no statement answer the same and leave the same database, in whatever
consecutive groups they are put into transactions. All transactions begin and commit. -/
theorem transactions_eq_edits {h : Handle} {db : Database} (hs : h.schema.Sound)
    (hi : h.schema.Installed db) (hkeys : (db.tables.map Table.key).Nodup)
    (groups : List (List Edit)) (hc : h.Unhindered ⟨db, none⟩ groups.flatten) :
    ∃ (answers : List (List (Except TreeError Answer))) (db' : Database),
      answers.map List.length = groups.map List.length ∧
      Session.run ⟨⟨db, none⟩, []⟩ (h.commands groups.flatten) =
        (answers.flatten.map .answer, ⟨⟨db', none⟩, []⟩) ∧
      Session.run ⟨⟨db, none⟩, []⟩ (groups.flatMap h.transaction) =
        (answers.flatMap fun part => .done (.ok ()) :: (part.map .answer ++ [.done (.ok ())]),
          ⟨⟨db', none⟩, []⟩) := by
  obtain ⟨answers, db', ha⟩ := Handle.exists_endsAll hs hi hkeys hc
  obtain ⟨parts, hlengths, rfl, hrun⟩ := Handle.run_transactions ha
  exact ⟨parts, db', hlengths, Handle.run_commands ha, hrun⟩

/-- Three transactions of edits that succeed and edits that fail, each for another reason. -/
def sampleGroups : List (List Edit) :=
  [[.add [("name", .integer 7)] .root, .add [] (.firstChildOf 1), .update 9 [("name", .null)],
      .add [] (.after 2)],
    [.move 1 (.after 3), .update 3 [("left", .null)], .update 3 [("size", .null)], .copy 1 .root,
      .move 2 (.after 2)],
    [.add [] .root, .remove 2, .update 3 [("name", .null)]]]

theorem transactions_eq_edits_sample :
    ∃ db, (sampleHandle.ensure {}).2 = ⟨db, none⟩ ∧
      sampleHandle.Unhindered ⟨db, none⟩ sampleGroups.flatten ∧
      (Session.run ⟨⟨db, none⟩, []⟩ (sampleGroups.flatMap sampleHandle.transaction)).2 =
        (Session.run ⟨⟨db, none⟩, []⟩ (sampleHandle.commands sampleGroups.flatten)).2 := by
  have hstore : (sampleHandle.ensure {}).2 = ⟨(sampleHandle.ensure {}).2.committed, none⟩ := by
    decide +kernel
  have hi : sampleHandle.schema.Installed (sampleHandle.ensure {}).2.committed :=
    ⟨.ofSchema sampleHandle.schema, by decide +kernel, Schema.declares_ofSchema _⟩
  have hkeys : ((sampleHandle.ensure {}).2.committed.tables.map Table.key).Nodup := by
    decide +kernel
  have hc : sampleHandle.Unhindered ⟨(sampleHandle.ensure {}).2.committed, none⟩
      sampleGroups.flatten := by
    decide +kernel
  obtain ⟨answers, db', -, hapart, htogether⟩ :=
    transactions_eq_edits sound_sampleHandle hi hkeys sampleGroups hc
  refine ⟨_, hstore, hc, ?_⟩
  rw [hapart, htogether]

end NestedSet
