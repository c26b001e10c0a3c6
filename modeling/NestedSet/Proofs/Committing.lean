import Mathlib
import NestedSet.Proofs.Grouping

/-!
# Committing after a refusal

A transaction that is held keeps what its edits have done, those included that
were refused a statement half way. Committing it is safe as long as each of
these had only looked nodes up and drawn ids by then. An edit that was refused
a statement after it had made room has pushed markers up for a node that never
came, and a commit makes the gap lasting.
-/

set_option autoImplicit false

namespace NestedSet

def Request.sparesTree : Request → Bool
  | .insert .. => false
  | .delete _ => false
  | .revise _ => false
  | _ => true

theorem Request.table?_of_sparesTree {s : Schema} {q : Request} {db db' : Database} {a : q.Reply}
    (hs : s.Sound) (hq : q.Proper s) (hspares : q.sparesTree = true)
    (h : q.statement s db = .ok (a, db')) : db'.table? s.table = db.table? s.table := by
  cases q with
  | find id => rw [(ask_ok h).2]
  | count => rw [(ask_ok h).2]
  | counter sequence => rw [(ask_ok h).2]
  | largestId => rw [(ask_ok h).2]
  | setCounter sequence value => exact (Schema.setCounter_ok hs hq h).1
  | insert id bounds parent values => cases hspares
  | delete range => cases hspares
  | revise c => cases hspares

theorem Procedure.table?_of_sparesTree {α : Type} {s : Schema} (hs : s.Sound) {p : Procedure α}
    (hp : p.Issues (Request.Proper s)) {d : Desk}
    (h : ∀ c ∈ p.calls s d, c.2 = none → c.1.sparesTree = true) :
    (p.result s d).2.database.table? s.table = d.database.table? s.table := by
  induction p generalizing d with
  | done answer => rfl
  | issue q next ih =>
    simp only [calls, result, Desk.serve] at h ⊢
    cases ho : d.outcome s q with
    | error refusal => rfl
    | ok x =>
      simp only [ho, List.forall_mem_cons] at h
      exact (ih x.1 (hp.2 x.1) h.2).trans (Request.table?_of_sparesTree hs hp.1 (h.1 trivial)
        (Desk.statement_of_outcome ho))
  | report event next ih => exact ih hp (d := d.report event) h

namespace Handle

def attempt (h : Handle) (edits : List (Edit × Mishaps)) : List (Handle × Command × Mishaps) :=
  (h, .begin, []) :: (edits.map (fun x => (h, .edit x.1, x.2)) ++ [(h, .finish .commit, [])])

/-- The transaction stays open over all edits, and each of them that is refused a statement has
only looked nodes up and drawn ids by then. -/
def Harmless (h : Handle) : Store → List (Edit × Mishaps) → Prop
  | _, [] => True
  | s, (e, mishaps) :: rest =>
    (h.editWithin s e mishaps).store.isWriting h.connection = true ∧
    ((Reply.answer (h.editWithin s e mishaps).answer).isRefusal = true →
      ∀ c ∈ (e.procedure h.schema).calls h.schema
        ⟨s.view h.connection, mishaps, [], !s.mayWrite h.connection⟩,
        c.2 = none → c.1.sparesTree = true) ∧
    h.Harmless (h.editWithin s e mishaps).store rest

instance decidableHarmless (h : Handle) :
    (s : Store) → (edits : List (Edit × Mishaps)) → Decidable (h.Harmless s edits)
  | _, [] => .isTrue trivial
  | s, (e, mishaps) :: rest =>
    have := decidableHarmless h (h.editWithin s e mishaps).store rest
    inferInstanceAs (Decidable (_ ∧ _ ∧ _))

variable {h : Handle} {committed draft : Database} {t : Table}

/-- One edit leaves all trees of the table in order. -/
theorem orderly_editWithin (hs : h.schema.Sound) (ht : Orderly h.schema draft t) {e : Edit}
    {mishaps : Mishaps} {rest : List (Edit × Mishaps)}
    (hh : h.Harmless ⟨committed, some ⟨h.connection, draft⟩⟩ ((e, mishaps) :: rest)) :
    ∃ draft' t', Orderly h.schema draft' t' ∧
      (h.editWithin ⟨committed, some ⟨h.connection, draft⟩⟩ e mishaps).store =
        ⟨committed, some ⟨h.connection, draft'⟩⟩ := by
  obtain ⟨hopen, hspares, -⟩ := hh
  have hview : Store.view ⟨committed, some ⟨h.connection, draft⟩⟩ h.connection = draft := by
    simp [Store.view]
  have hmay : Store.mayWrite ⟨committed, some ⟨h.connection, draft⟩⟩ h.connection = true := by
    simp [Store.mayWrite]
  rcases hr : (e.procedure h.schema).result h.schema ⟨draft, mishaps, [], false⟩ with ⟨answer, d⟩
  obtain ⟨hanswer, hstore⟩ := editWithin_of_isWriting hopen
  rw [hview, hmay, Bool.not_true, hanswer, hr] at hspares
  have hkept : ∃ t', Orderly h.schema d.database t' := by
    obtain ⟨step, refusal, rfl⟩ | ht' := ht.result (.refl h.schema) hs rfl hr
    · have htable := Procedure.table?_of_sparesTree hs (e.issues_procedure h.schema) (hspares rfl)
      rw [hr] at htable
      exact ⟨t, htable.trans ht.found, ht.declares, ht.ids, ht.trees⟩
    · exact ht'
  obtain ⟨t', ht'⟩ := hkept
  refine ⟨d.database, t', ht', ?_⟩
  rw [hstore, hr]

theorem orderly_run_within (hs : h.schema.Sound) (ht : Orderly h.schema draft t)
    {edits : List (Edit × Mishaps)}
    (hh : h.Harmless ⟨committed, some ⟨h.connection, draft⟩⟩ edits) :
    ∃ draft' t', Orderly h.schema draft' t' ∧
      (Session.run ⟨⟨committed, some ⟨h.connection, draft⟩⟩, [h.connection]⟩
        (edits.map fun x => (h, .edit x.1, x.2))).2 =
        ⟨⟨committed, some ⟨h.connection, draft'⟩⟩, [h.connection]⟩ := by
  induction edits generalizing draft t with
  | nil => exact ⟨draft, t, ht, rfl⟩
  | cons x rest ih =>
    obtain ⟨e, mishaps⟩ := x
    obtain ⟨draft₁, t₁, ht₁, hstore⟩ := orderly_editWithin hs ht hh
    have hrest := hh.2.2
    rw [hstore] at hrest
    obtain ⟨draft', t', ht', hrun⟩ := ih ht₁ hrest
    refine ⟨draft', t', ht', ?_⟩
    simp only [List.map_cons, Session.run, Session.perform, Session.edit_of_held, hstore, hrun]

end Handle

/-- A transaction commits, and nothing is wrong with any tree of the table afterwards, if each of
its edits that was refused a statement had only looked nodes up and drawn ids by then. -/
theorem harmless_commits_are_clean {h : Handle} {db : Database} {t : Table} (hs : h.schema.Sound)
    (ht : Orderly h.schema db t) (edits : List (Edit × Mishaps))
    (hh : h.Harmless ⟨db, some ⟨h.connection, db⟩⟩ edits) :
    ∃ replies session, Session.run ⟨⟨db, none⟩, []⟩ (h.attempt edits) =
        (replies ++ [.done (.ok ())], session) ∧ session.store.writer = none ∧
      ∀ g : Handle, h.schema.Akin g.schema → g.read session.store Reading.check = .ok [] := by
  obtain ⟨draft, t', ht', hrun⟩ := Handle.orderly_run_within hs ht hh
  have hbegin : Session.perform ⟨⟨db, none⟩, []⟩ h .begin [] =
      (.done (.ok ()), ⟨⟨db, some ⟨h.connection, db⟩⟩, [h.connection]⟩, []) := rfl
  have hcommit : Session.perform ⟨⟨db, some ⟨h.connection, draft⟩⟩, [h.connection]⟩ h
      (.finish .commit) [] = (.done (.ok ()), ⟨⟨draft, none⟩, []⟩, []) := by
    simp [Session.perform, Session.finish, Ending.close, Store.commit]
  rcases hedits : Session.run ⟨⟨db, some ⟨h.connection, db⟩⟩, [h.connection]⟩
    (edits.map fun x => (h, .edit x.1, x.2)) with ⟨replies, session⟩
  rw [hedits] at hrun
  obtain rfl : session = _ := hrun
  refine ⟨.done (.ok ()) :: replies, ⟨⟨draft, none⟩, []⟩, ?_, rfl, fun g hg => ht'.read_check hg⟩
  rw [Handle.attempt, Session.run, hbegin]
  simp only [Session.run_append, hedits, Session.run, hcommit, List.cons_append]

/-- Additions that are refused a statement before they make room, and others that succeed. -/
def harmlessEdits : List (Edit × Mishaps) :=
  [(.add [] .root, []), (.add [] (.firstChildOf 1), [some (.interrupted false)]),
    (.add [] (.firstChildOf 1), [none, some (.interrupted false)]), (.add [] (.firstChildOf 1), [])]

theorem harmless_commits_are_clean_sample :
    ∃ db session replies, (plainHandle.ensure {}).2 = ⟨db, none⟩ ∧
      plainHandle.Harmless ⟨db, some ⟨0, db⟩⟩ harmlessEdits ∧
      Session.run ⟨⟨db, none⟩, []⟩ (plainHandle.attempt harmlessEdits) =
        (replies ++ [.done (.ok ())], session) ∧
      plainHandle.read session.store Reading.check = .ok [] := by
  have hstore : (plainHandle.ensure {}).2 = ⟨(plainHandle.ensure {}).2.committed, none⟩ := by
    decide +kernel
  have ht : Orderly plainHandle.schema (plainHandle.ensure {}).2.committed
      (.ofSchema plainHandle.schema) :=
    ⟨by decide +kernel, Schema.declares_ofSchema _, List.nodup_nil,
      fun s' _ => ⟨.nil, rfl, .refl _⟩⟩
  have hh : plainHandle.Harmless ⟨(plainHandle.ensure {}).2.committed,
      some ⟨0, (plainHandle.ensure {}).2.committed⟩⟩ harmlessEdits := by
    decide +kernel
  obtain ⟨replies, session, hrun, -, hclean⟩ :=
    harmless_commits_are_clean sound_plainHandle ht harmlessEdits hh
  exact ⟨_, session, replies, hstore, hh, hrun, hclean plainHandle (.refl _)⟩

def barredStore : Store :=
  { committed := plainSession.store.committed.addFault ⟨.insert, plainHandle.schema, false⟩ }

def barredRun : List Reply × Session :=
  Session.run ⟨barredStore, []⟩
    [(plainHandle, .begin, []), (plainHandle, .edit (.add [] (.firstChildOf 1)), [])]

/-- Nothing is wrong with the tree before. The addition has made room when it is refused, the
transaction commits all the same, and the gap is there to stay. -/
theorem commit_after_refusal_leaves_gap :
    plainHandle.read barredStore Reading.check = .ok [] ∧
      barredRun.1.map Reply.isRefusal = [false, true] ∧
      (barredRun.2.finish plainHandle .commit).1 = .ok () ∧
      plainHandle.read (barredRun.2.finish plainHandle .commit).2.store Reading.check =
        .ok [.spanMismatch 1 4 1, .markersNotContiguous 2 4] := by
  have hbefore : plainHandle.schema.records (barredStore.view 0) =
      .ok [⟨⟨"id", .numeric, .integer 1⟩, ⟨"l", .numeric, .integer 1⟩, ⟨"r", .numeric, .integer 2⟩,
        ⟨"p", .numeric, .null⟩, []⟩] := by
    decide +kernel
  have hafter : plainHandle.schema.records
      ((barredRun.2.finish plainHandle .commit).2.store.view 0) =
      .ok [⟨⟨"id", .numeric, .integer 1⟩, ⟨"l", .numeric, .integer 1⟩, ⟨"r", .numeric, .integer 4⟩,
        ⟨"p", .numeric, .null⟩, []⟩] := by
    decide +kernel
  refine ⟨?_, by decide +kernel, by decide +kernel, ?_⟩
  · rw [Handle.read_of_records hbefore]
    cbv
  · rw [Handle.read_of_records hafter]
    cbv

end NestedSet
