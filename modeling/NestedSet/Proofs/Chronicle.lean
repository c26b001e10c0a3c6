import Mathlib
import NestedSet.Proofs.Consistency

/-!
# The chronicle of a session

A chronicle keeps, beside a session, what was done in it for good: the edits
that succeeded on their own, and the transactions, each as a whole at the time
of its commit. As long as no transaction is lost while its user holds it, a
session either rests or has one transaction open, and there are few steps
that lead from one such state to another.
-/

set_option autoImplicit false

namespace NestedSet

abbrev Deed := (Handle × Command × Mishaps) × Reply

structure Chronicle where
  session : Session := {}
  /-- What was done for good, in the order of the commits. -/
  settled : List (List Deed) := []
  /-- What the open transaction has done so far. -/
  pending : List Deed := []

namespace Chronicle

def edit (c : Chronicle) (h : Handle) (e : Edit) (mishaps : Mishaps) : Chronicle :=
  let o := c.session.edit h e mishaps
  let deed : Deed := ((h, .edit e, mishaps), .answer o.answer)
  { session := { c.session with store := o.store }
    settled :=
      if !c.session.isHeld h && o.answer.toBool then c.settled ++ [[deed]] else c.settled
    pending := if c.session.isHeld h then c.pending ++ [deed] else c.pending }

def moveAll (c : Chronicle) (h : Handle) (placement : Placement) : List Int → Mishaps → Chronicle
  | [], _ => c
  | id :: rest, mishaps =>
    (c.edit h (.move id placement) mishaps).moveAll h placement rest
      (c.session.edit h (.move id placement) mishaps).mishaps

def begin (c : Chronicle) (h : Handle) (mishaps : Mishaps) : Chronicle :=
  match c.session.begin h mishaps with
  | .ok s => { c with session := s, pending := [((h, .begin, mishaps), .done (.ok ()))] }
  | .error _ => c

def finish (c : Chronicle) (h : Handle) (ending : Ending) (mishaps : Mishaps) : Chronicle :=
  let (result, s) := c.session.finish h ending mishaps
  { session := s
    settled :=
      if decide (ending = .commit) && result.toBool then
        c.settled ++ [c.pending ++ [((h, .finish ending, mishaps), .done result)]]
      else c.settled
    pending := if c.session.isHeld h then [] else c.pending }

def perform (c : Chronicle) (x : Handle × Command × Mishaps) : Chronicle :=
  match x.2.1 with
  | .edit e => c.edit x.1 e x.2.2
  | .moveAll ids placement => c.moveAll x.1 placement ids x.2.2
  | .begin => c.begin x.1 x.2.2
  | .finish ending => c.finish x.1 ending x.2.2
  | .endBehind => { c with session := (c.session.perform x.1 .endBehind x.2.2).2.1 }

def run (c : Chronicle) (steps : List (Handle × Command × Mishaps)) : Chronicle :=
  steps.foldl perform c

theorem session_moveAll (c : Chronicle) (h : Handle) (placement : Placement) (ids : List Int)
    (mishaps : Mishaps) :
    (c.moveAll h placement ids mishaps).session =
      (c.session.moveAll h placement ids mishaps).2.1 := by
  induction ids generalizing c mishaps with
  | nil => rfl
  | cons id rest ih => exact ih _ _

theorem session_perform (c : Chronicle) (x : Handle × Command × Mishaps) :
    (c.perform x).session = (c.session.perform x.1 x.2.1 x.2.2).2.1 := by
  obtain ⟨h, command, mishaps⟩ := x
  cases command with
  | edit e => rfl
  | moveAll ids placement => exact c.session_moveAll h placement ids mishaps
  | begin =>
    simp only [perform, begin, Session.perform]
    cases c.session.begin h mishaps <;> rfl
  | finish ending => rfl
  | endBehind => rfl

theorem session_run (c : Chronicle) (steps : List (Handle × Command × Mishaps)) :
    (c.run steps).session = (c.session.run steps).2 := by
  induction steps generalizing c with
  | nil => rfl
  | cons x rest ih =>
    rw [run, List.foldl_cons, ← run, ih, c.session_perform]
    rfl

end Chronicle

/-! ### Sessions that lose no transaction -/

def Command.isBatch : Command → Bool
  | .moveAll _ _ => true
  | _ => false

namespace Session

def isIntact (s : Session) : Bool := s.held.all fun c => s.store.isWriting c

/-- No transaction is lost while its user holds it, and no batch is asked for through a handle whose
user holds one. -/
def Unbroken (s : Session) : List (Handle × Command × Mishaps) → Prop
  | [] => True
  | (h, command, mishaps) :: rest =>
    (command.isBatch = true → s.isHeld h = false) ∧
      (s.perform h command mishaps).2.1.isIntact = true ∧
      (s.perform h command mishaps).2.1.Unbroken rest

instance decidableUnbroken :
    (s : Session) → (steps : List (Handle × Command × Mishaps)) → Decidable (s.Unbroken steps)
  | _, [] => .isTrue trivial
  | s, (h, command, mishaps) :: rest =>
    have := decidableUnbroken (s.perform h command mishaps).2.1 rest
    inferInstanceAs (Decidable (_ ∧ _ ∧ _))

end Session

theorem Store.commit_of_not_isWriting {s : Store} {c : Nat} (h : s.isWriting c = false) :
    s.commit c = .error (.backend .commit .nothingToCommit) := by
  unfold Store.isWriting at h
  unfold Store.commit
  cases hw : s.writer with
  | none => rfl
  | some w =>
    rw [hw] at h
    simp only
    rw [if_neg (by simpa using h)]

namespace Chronicle

open Relation (ReflTransGen)

def resting (db : Database) (settled : List (List Deed)) : Chronicle :=
  ⟨⟨⟨db, none⟩, []⟩, settled, []⟩

def writing (db : Database) (w : Writer) (settled : List (List Deed)) (pending : List Deed) :
    Chronicle :=
  ⟨⟨⟨db, some w⟩, [w.connection]⟩, settled, pending⟩

/-- The steps of a chronicle that loses no transaction, through handles of some kind. -/
inductive Leads (kind : Handle → Prop) : Chronicle → Chronicle → Prop
  | edit {db db' : Database} {settled : List (List Deed)} {h : Handle} {e : Edit}
      {mishaps : Mishaps} {a : Answer} (ofKind : kind h)
      (answer : (Session.edit ⟨⟨db, none⟩, []⟩ h e mishaps).answer = .ok a)
      (store : (Session.edit ⟨⟨db, none⟩, []⟩ h e mishaps).store = ⟨db', none⟩) :
      Leads kind (resting db settled)
        (resting db' (settled ++ [[((h, .edit e, mishaps), .answer (.ok a))]]))
  | begin {db : Database} {settled : List (List Deed)} {h : Handle} {mishaps : Mishaps}
      (ofKind : kind h) (ready : mishaps.head?.join = none) :
      Leads kind (resting db settled)
        (writing db ⟨h.connection, db⟩ settled [((h, .begin, mishaps), .done (.ok ()))])
  | editWithin {db draft draft' : Database} {settled : List (List Deed)} {pending : List Deed}
      {h : Handle} {e : Edit} {mishaps : Mishaps} (ofKind : kind h)
      (store : (Session.edit ⟨⟨db, some ⟨h.connection, draft⟩⟩, [h.connection]⟩ h e mishaps).store =
        ⟨db, some ⟨h.connection, draft'⟩⟩) :
      Leads kind (writing db ⟨h.connection, draft⟩ settled pending)
        (writing db ⟨h.connection, draft'⟩ settled (pending ++ [((h, .edit e, mishaps),
          .answer (Session.edit ⟨⟨db, some ⟨h.connection, draft⟩⟩, [h.connection]⟩ h e
            mishaps).answer)]))
  | commit {db draft : Database} {settled : List (List Deed)} {pending : List Deed} {h : Handle}
      {mishaps : Mishaps} (ofKind : kind h) (ready : mishaps.head?.join = none) :
      Leads kind (writing db ⟨h.connection, draft⟩ settled pending)
        (resting draft (settled ++ [pending ++ [((h, .finish .commit, mishaps), .done (.ok ()))]]))
  | release {db : Database} {w : Writer} {settled : List (List Deed)} {pending : List Deed} :
      Leads kind (writing db w settled pending) (resting db settled)

/-- A chronicle that rests or has one transaction open, which is held. -/
inductive Sturdy : Chronicle → Prop
  | resting (db : Database) (settled : List (List Deed)) : Sturdy (resting db settled)
  | writing (db : Database) (w : Writer) (settled : List (List Deed)) (pending : List Deed) :
      Sturdy (writing db w settled pending)

variable {kind : Handle → Prop} {c c' : Chronicle} {h : Handle}

theorem Leads.sturdy (hl : Leads kind c c') : c'.Sturdy := by
  cases hl with
  | edit => exact .resting _ _
  | begin => exact .writing _ _ _ _
  | editWithin => exact .writing _ _ _ _
  | commit => exact .resting _ _
  | release => exact .resting _ _

theorem Sturdy.of_leads (hc : c.Sturdy) (hl : ReflTransGen (Leads kind) c c') : c'.Sturdy := by
  cases hl with
  | refl => exact hc
  | tail _ hlast => exact hlast.sturdy

theorem isHeld_writing (db : Database) (w : Writer) (settled : List (List Deed))
    (pending : List Deed) (h : Handle) :
    (writing db w settled pending).session.isHeld h = true ↔ h.connection = w.connection := by
  simp [writing, Session.isHeld]

theorem Sturdy.isWriting_eq (hc : c.Sturdy) (n : Nat) :
    c.session.store.isWriting n = c.session.held.contains n := by
  cases hc with
  | resting db settled => rfl
  | writing db w settled pending =>
    obtain ⟨connection, draft⟩ := w
    rw [Bool.eq_iff_iff, Chronicle.writing, Store.isWriting_iff, List.contains_iff_mem,
      List.mem_singleton]
    exact eq_comm

theorem leads_edit_apart (hk : kind h) (hc : c.Sturdy) (hh : c.session.isHeld h = false) (e : Edit)
    (mishaps : Mishaps) : ReflTransGen (Leads kind) c (c.edit h e mishaps) := by
  have hedit : c.session.edit h e mishaps = h.edit c.session.store e mishaps := by
    simp only [Session.edit, hh, Bool.false_eq_true, if_false]
  cases ha : (c.session.edit h e mishaps).answer with
  | error error =>
    have hsame : (c.session.edit h e mishaps).store = c.session.store := by
      rw [hedit] at ha ⊢
      exact Handle.store_of_error ha
    have hstay : c.edit h e mishaps = c := by
      simp [edit, hh, ha, hsame, Except.toBool]
    rw [hstay]
  | ok a =>
    cases hc with
    | resting db settled =>
      obtain ⟨db', hstore⟩ : ∃ db',
          (Session.edit ⟨⟨db, none⟩, []⟩ h e mishaps).store = ⟨db', none⟩ :=
        ⟨_, congrArg (Store.mk _) (h.writer_edit db e mishaps)⟩
      have hnext : (resting db settled).edit h e mishaps =
          resting db' (settled ++ [[((h, .edit e, mishaps), .answer (.ok a))]]) := by
        simp only [resting] at ha ⊢
        simp [edit, Session.isHeld, ha, hstore, Except.toBool]
      rw [hnext]
      exact .single (.edit hk ha hstore)
    | writing db w settled pending =>
      -- another transaction is open, so the edit cannot have succeeded
      rw [hedit] at ha
      cases hm : mishaps.head?.join with
      | some refusal => simp [Handle.edit_of_mishap hm] at ha
      | none =>
        rw [Handle.edit_of_writer (w := w) hm rfl] at ha
        cases ha

theorem leads_edit_within (hk : kind h) (db draft : Database) (settled : List (List Deed))
    (pending : List Deed) (e : Edit) (mishaps : Mishaps)
    (hi : ((writing db ⟨h.connection, draft⟩ settled pending).edit h e mishaps).session.isIntact =
      true) :
    Leads kind (writing db ⟨h.connection, draft⟩ settled pending)
      ((writing db ⟨h.connection, draft⟩ settled pending).edit h e mishaps) := by
  have hheld := (isHeld_writing db ⟨h.connection, draft⟩ settled pending h).2 rfl
  obtain ⟨draft', hstore⟩ : ∃ draft',
      (Session.edit ⟨⟨db, some ⟨h.connection, draft⟩⟩, [h.connection]⟩ h e mishaps).store =
        ⟨db, some ⟨h.connection, draft'⟩⟩ := by
    have hopen : (h.editWithin ⟨db, some ⟨h.connection, draft⟩⟩ e mishaps).store.isWriting
        h.connection = true := by
      rw [← Session.edit_of_held]
      exact List.all_eq_true.1 hi h.connection (List.mem_singleton_self _)
    rw [Session.edit_of_held]
    exact ⟨_, (Handle.editWithin_of_isWriting hopen).2⟩
  have hnext : (writing db ⟨h.connection, draft⟩ settled pending).edit h e mishaps =
      writing db ⟨h.connection, draft'⟩ settled (pending ++ [((h, .edit e, mishaps),
        .answer (Session.edit ⟨⟨db, some ⟨h.connection, draft⟩⟩, [h.connection]⟩ h e
          mishaps).answer)]) := by
    simp only [edit, hheld, Bool.not_true, Bool.false_and, Bool.false_eq_true, if_false, if_true]
    simp only [writing, hstore]
  rw [hnext]
  exact .editWithin hk hstore

theorem leads_moveAll (hk : kind h) (hc : c.Sturdy) (hh : c.session.isHeld h = false)
    (placement : Placement) (ids : List Int) (mishaps : Mishaps) :
    ReflTransGen (Leads kind) c (c.moveAll h placement ids mishaps) := by
  induction ids generalizing c mishaps with
  | nil => exact .refl
  | cons id rest ih =>
    have hfirst := leads_edit_apart hk hc hh (.move id placement) mishaps
    exact hfirst.trans (ih (hc.of_leads hfirst) hh _)

theorem leads_begin (hk : kind h) (hc : c.Sturdy) (mishaps : Mishaps) :
    ReflTransGen (Leads kind) c (c.begin h mishaps) := by
  cases hm : mishaps.head?.join with
  | some refusal =>
    have hstay : c.begin h mishaps = c := by simp [begin, Session.begin, hm]
    rw [hstay]
  | none =>
    cases hc with
    | resting db settled =>
      have hnext : (resting db settled).begin h mishaps =
          writing db ⟨h.connection, db⟩ settled [((h, .begin, mishaps), .done (.ok ()))] := by
        simp [begin, Session.begin, hm, resting, writing, Store.start, bind, Except.bind, pure,
          Except.pure]
      rw [hnext]
      exact .single (.begin hk hm)
    | writing db w settled pending =>
      have hstay : (writing db w settled pending).begin h mishaps =
          writing db w settled pending := by
        simp [begin, Session.begin, hm, writing, Store.start, bind, Except.bind]
      rw [hstay]

theorem finish_apart (hc : c.Sturdy) (hh : c.session.isHeld h = false) (ending : Ending)
    (mishaps : Mishaps) : c.finish h ending mishaps = c := by
  have hw : c.session.store.isWriting h.connection = false := by
    rw [hc.isWriting_eq]
    exact hh
  have hstore : c.session.store.abandon h.connection = c.session.store := by
    simp [Store.abandon, hw]
  have hheld : c.session.held.erase h.connection = c.session.held := by
    apply List.erase_of_not_mem
    simpa [Session.isHeld] using hh
  have hcommit := Store.commit_of_not_isWriting hw
  cases ending with
  | commit =>
    cases hm : mishaps.head?.join <;>
      simp [finish, Session.finish, Ending.close, hcommit, hstore, hheld, hh, hm, Except.toBool]
  | rollback =>
    simp [finish, Session.finish, Ending.close, Store.rollback, hw, hstore, hheld, hh]
  | drop => simp [finish, Session.finish, Ending.close, hstore, hheld, hh]

theorem leads_finish (hk : kind h) (hc : c.Sturdy) (ending : Ending) (mishaps : Mishaps) :
    ReflTransGen (Leads kind) c (c.finish h ending mishaps) := by
  by_cases hh : c.session.isHeld h = true
  · cases hc with
    | resting db settled => cases hh
    | writing db w settled pending =>
      obtain ⟨connection, draft⟩ := w
      obtain rfl : h.connection = connection := (isHeld_writing _ _ _ _ _).1 hh
      have hwriting : Store.isWriting ⟨db, some ⟨h.connection, draft⟩⟩ h.connection = true :=
        Store.isWriting_iff.2 rfl
      by_cases he : ending = .commit
      · subst he
        cases hm : mishaps.head?.join with
        | some refusal =>
          have hnext : (writing db ⟨h.connection, draft⟩ settled pending).finish h .commit mishaps =
              resting db settled := by
            simp [finish, Session.finish, Ending.close, hm, writing, resting, Session.isHeld,
              Store.abandon, hwriting, Except.toBool]
          rw [hnext]
          exact .single .release
        | none =>
          have hnext : (writing db ⟨h.connection, draft⟩ settled pending).finish h .commit mishaps =
              resting draft (settled ++
                [pending ++ [((h, .finish .commit, mishaps), .done (.ok ()))]]) := by
            simp [finish, Session.finish, Ending.close, Store.commit, hm, writing, resting,
              Session.isHeld, Except.toBool]
          rw [hnext]
          exact .single (.commit hk hm)
      · have hnext : (writing db ⟨h.connection, draft⟩ settled pending).finish h ending mishaps =
            resting db settled := by
          simp only [finish, Session.finish_of_isWriting (s := (writing db ⟨h.connection, draft⟩
            settled pending).session) he hwriting mishaps, hh]
          simp [writing, resting, he]
        rw [hnext]
        exact .single .release
  · rw [finish_apart hc (by simpa using hh)]

/-- What a chronicle is led to that loses no transaction. -/
theorem leads_perform (hc : c.Sturdy) {x : Handle × Command × Mishaps} (hk : kind x.1)
    (hbatch : x.2.1.isBatch = true → c.session.isHeld x.1 = false)
    (hi : (c.perform x).session.isIntact = true) : ReflTransGen (Leads kind) c (c.perform x) := by
  obtain ⟨h, command, mishaps⟩ := x
  cases command with
  | edit e =>
    by_cases hh : c.session.isHeld h = true
    · cases hc with
      | resting db settled => cases hh
      | writing db w settled pending =>
        obtain ⟨connection, draft⟩ := w
        obtain rfl : h.connection = connection := (isHeld_writing _ _ _ _ _).1 hh
        exact .single (leads_edit_within hk db draft settled pending e mishaps hi)
    · exact leads_edit_apart hk hc (by simpa using hh) e mishaps
  | moveAll ids placement => exact leads_moveAll hk hc (hbatch rfl) placement ids mishaps
  | begin => exact leads_begin hk hc mishaps
  | finish ending => exact leads_finish hk hc ending mishaps
  | endBehind =>
    have hstay : c.perform (h, .endBehind, mishaps) = c := by
      cases hc with
      | resting db settled => rfl
      | writing db w settled pending =>
        have hne : w.connection ≠ h.connection := by
          intro he
          simp [perform, Session.perform, Session.isIntact, writing, Store.abandon,
            Store.isWriting, he] at hi
        simp [perform, Session.perform, writing, Store.abandon, Store.isWriting, hne]
    rw [hstay]

theorem leads_run (hc : c.Sturdy) {steps : List (Handle × Command × Mishaps)}
    (hk : ∀ x ∈ steps, kind x.1) (hu : c.session.Unbroken steps) :
    ReflTransGen (Leads kind) c (c.run steps) := by
  induction steps generalizing c with
  | nil => exact .refl
  | cons x rest ih =>
    rw [List.forall_mem_cons] at hk
    obtain ⟨hbatch, hi, hrest⟩ := hu
    rw [← c.session_perform x] at hi hrest
    have hfirst := leads_perform hc hk.1 hbatch hi
    exact hfirst.trans (ih (hc.of_leads hfirst) hk.2 hrest)

end Chronicle

end NestedSet
