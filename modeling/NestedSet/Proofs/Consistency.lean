import Mathlib
import NestedSet.Proofs.Atomicity
import NestedSet.Proofs.Partitions

/-!
# Runs keep the trees in order

Several handles work on the trees of one table, in transactions of their own
or in ones that their users hold, while any statement may fail. What was
committed stays in order, and so does the draft of a transaction until one of
its edits is refused a statement. Such a transaction is spoiled; its user is
to let go of it.
-/

set_option autoImplicit false

namespace NestedSet

theorem Store.isWriting_iff {committed draft : Database} {c d : Nat} :
    Store.isWriting ⟨committed, some ⟨d, draft⟩⟩ c = true ↔ d = c := by
  simp [isWriting]

theorem Store.run_of_writer {α : Type} {committed draft : Database} {c : Nat} {schema : Schema}
    {p : Procedure α} {mishaps : Mishaps} :
    Store.run ⟨committed, some ⟨c, draft⟩⟩ c schema p mishaps =
      match p.result schema ⟨draft, mishaps, [], false⟩ with
      | (.error e, d) => ⟨.error e, ⟨committed,
          if e.endsTransaction then none else some ⟨c, d.database⟩⟩, d.events, d.mishaps⟩
      | (.ok a, d) => ⟨.ok a, ⟨committed, some ⟨c, d.database⟩⟩, d.events, d.mishaps⟩ := by
  have hview : Store.view ⟨committed, some ⟨c, draft⟩⟩ c = draft := by simp [view]
  have hwrite : Store.mayWrite ⟨committed, some ⟨c, draft⟩⟩ c = true := by simp [mayWrite]
  have hwriting : Store.isWriting ⟨committed, some ⟨c, draft⟩⟩ c = true := by simp [isWriting]
  have hreplace : ∀ db, Store.replace ⟨committed, some ⟨c, draft⟩⟩ c db =
      ⟨committed, some ⟨c, db⟩⟩ := fun db => by simp [replace]
  unfold run
  rw [hview, hwrite, Bool.not_true]
  rcases p.result schema ⟨draft, mishaps, [], false⟩ with ⟨answer, d⟩
  cases answer with
  | ok a => simp only [hreplace]
  | error e =>
    cases he : e.endsTransaction <;> simp [hwriting, hreplace, abandon, he]

section

variable {committed draft : Database} {h : Handle} {e : Edit} {mishaps : Mishaps}

theorem Session.edit_of_held :
    Session.edit ⟨⟨committed, some ⟨h.connection, draft⟩⟩, [h.connection]⟩ h e mishaps =
      h.editWithin ⟨committed, some ⟨h.connection, draft⟩⟩ e mishaps := by
  simp [Session.edit, Session.isHeld]

theorem Handle.editWithin_of_isWriting
    (ho : (h.editWithin ⟨committed, some ⟨h.connection, draft⟩⟩ e mishaps).store.isWriting
      h.connection = true) :
    (h.editWithin ⟨committed, some ⟨h.connection, draft⟩⟩ e mishaps).answer =
        ((e.procedure h.schema).result h.schema ⟨draft, mishaps, [], false⟩).1 ∧
      (h.editWithin ⟨committed, some ⟨h.connection, draft⟩⟩ e mishaps).store =
        ⟨committed, some ⟨h.connection,
          ((e.procedure h.schema).result h.schema ⟨draft, mishaps, [], false⟩).2.database⟩⟩ := by
  unfold editWithin at ho ⊢
  rw [Store.run_of_writer] at ho ⊢
  rcases hr : (e.procedure h.schema).result h.schema ⟨draft, mishaps, [], false⟩ with ⟨answer, d⟩
  rw [hr] at ho
  cases answer with
  | ok a => exact ⟨rfl, rfl⟩
  | error error =>
    cases hends : error.endsTransaction with
    | true => simp [hends, Store.isWriting] at ho
    | false => exact ⟨rfl, by simp [hends]⟩

end

/-- A session and the connections whose held transaction has met a refusal. -/
structure Watched where
  session : Session := {}
  spoiled : List Nat := []
  deriving DecidableEq, Repr

def Reply.isRefusal : Reply → Bool
  | .answer (.error e) => e.failedStep?.isSome
  | _ => false

namespace Watched

def perform (w : Watched) (x : Handle × Command × Mishaps) : Watched :=
  let (reply, session, _) := w.session.perform x.1 x.2.1 x.2.2
  let spoiled :=
    match x.2.1 with
    | .finish _ => w.spoiled.filter (· != x.1.connection)
    | _ =>
      if w.session.isHeld x.1 && reply.isRefusal then x.1.connection :: w.spoiled else w.spoiled
  ⟨session, spoiled⟩

def run (w : Watched) (steps : List (Handle × Command × Mishaps)) : Watched :=
  steps.foldl perform w

/-- A spoiled transaction may only be rolled back or dropped. A batch runs outside of any
transaction that is held, and none is ended without its user's knowledge. -/
def allows (w : Watched) (x : Handle × Command × Mishaps) : Bool :=
  match x.2.1 with
  | .edit _ => !w.spoiled.contains x.1.connection
  | .moveAll _ _ => !w.session.isHeld x.1
  | .begin => !w.spoiled.contains x.1.connection
  | .finish .commit => !w.spoiled.contains x.1.connection
  | .finish _ => true
  | .endBehind => !w.session.isHeld x.1

/-- A run whose every command is allowed where it stands. -/
def Careful (w : Watched) : List (Handle × Command × Mishaps) → Prop
  | [] => True
  | x :: rest => w.allows x = true ∧ (w.perform x).Careful rest

instance decidableCareful :
    (w : Watched) → (steps : List (Handle × Command × Mishaps)) → Decidable (w.Careful steps)
  | _, [] => .isTrue trivial
  | w, x :: rest =>
    have := decidableCareful (w.perform x) rest
    inferInstanceAs (Decidable (_ ∧ _))

theorem session_run (w : Watched) (steps : List (Handle × Command × Mishaps)) :
    (w.run steps).session = (w.session.run steps).2 := by
  induction steps generalizing w with
  | nil => rfl
  | cons x rest ih =>
    rw [run, List.foldl_cons, ← run, ih]
    rfl

theorem careful_of_append {w : Watched} {before after : List (Handle × Command × Mishaps)}
    (h : w.Careful (before ++ after)) : w.Careful before := by
  induction before generalizing w with
  | nil => trivial
  | cons x rest ih => exact ⟨h.1, ih h.2⟩

end Watched

structure Schema.Opens (s : Schema) (h : Handle) : Prop where
  akin : s.Akin h.schema
  sound : h.schema.Sound

/-- Every tree of the table is in order in what was committed and in every draft that is not
spoiled, and the transactions that are held and not spoiled are open. -/
structure Watched.Consistent (s : Schema) (w : Watched) : Prop where
  committed : ∃ t, Orderly s w.session.store.committed t
  draft : ∀ x, w.session.store.writer = some x → x.connection ∉ w.spoiled →
    ∃ t, Orderly s x.draft t
  held : ∀ x, w.session.store.writer = some x → x.connection ∈ w.session.held
  writing : ∀ c ∈ w.session.held, c ∉ w.spoiled → w.session.store.isWriting c = true
  nodup : w.session.held.Nodup
  spoiled : ∀ c ∈ w.spoiled, c ∈ w.session.held

namespace Watched.Consistent

variable {s : Schema} {w : Watched} {h : Handle}

theorem orderly_view (hw : w.Consistent s) {c : Nat} (hc : c ∉ w.spoiled) :
    ∃ t, Orderly s (w.session.store.view c) t := by
  unfold Store.view
  cases hx : w.session.store.writer with
  | none => exact hw.committed
  | some x =>
    by_cases hxc : x.connection = c
    · simp only [hxc, if_true]
      exact hw.draft x hx (by rwa [hxc])
    · simp only [hxc, if_false]
      exact hw.committed

theorem not_writing (hw : w.Consistent s) {c : Nat} (hc : c ∉ w.session.held) :
    w.session.store.isWriting c = false := by
  unfold Store.isWriting
  cases hx : w.session.store.writer with
  | none => rfl
  | some x =>
    have hheld := hw.held x hx
    have hne : x.connection ≠ c := fun he => hc (he ▸ hheld)
    simpa using hne

theorem edit_apart (hw : w.Consistent s) (ho : s.Opens h) (e : Edit) (mishaps : Mishaps) :
    Watched.Consistent s
      ⟨⟨(h.edit w.session.store e mishaps).store, w.session.held⟩, w.spoiled⟩ := by
  cases ha : (h.edit w.session.store e mishaps).answer with
  | error error =>
    rw [Handle.store_of_error ha]
    exact hw
  | ok a =>
    obtain ⟨⟨⟨db, writer⟩, held⟩, spoiled⟩ := w
    cases hm : mishaps.head?.join with
    | some refusal =>
      rw [Handle.edit_of_mishap hm] at ha
      cases ha
    | none =>
      cases writer with
      | some x =>
        rw [Handle.edit_of_writer hm rfl] at ha
        cases ha
      | none =>
        rcases hr : (e.procedure h.schema).result h.schema
          { database := db, mishaps := mishaps.tail } with ⟨answer, d⟩
        cases answer with
        | error error =>
          rw [Handle.edit_of_error hm hr] at ha
          cases ha
        | ok b =>
          rw [Handle.edit_of_ok hm hr] at ha ⊢
          cases hc : d.mishaps.head?.join with
          | some refusal =>
            simp [hc] at ha
          | none =>
            obtain ⟨t, ht⟩ := hw.committed
            obtain ⟨step, refusal, hrefusal⟩ | ht' := ht.result ho.akin ho.sound rfl hr
            · cases hrefusal
            · refine ⟨ht', ?_, ?_, ?_, hw.nodup, hw.spoiled⟩
              · intro x hx
                cases hx
              · intro x hx
                cases hx
              · intro c hheld hspoiled
                cases hw.writing c hheld hspoiled

section

variable {committed draft : Database} {held spoiled : List Nat} {c : Nat}

theorem eq_of_held (hw : Watched.Consistent s ⟨⟨⟨committed, some ⟨c, draft⟩⟩, held⟩, spoiled⟩)
    {c' : Nat} (hheld : c' ∈ held) (hspoiled : c' ∉ spoiled) : c' = c :=
  (Store.isWriting_iff.1 (hw.writing c' hheld hspoiled)).symm

/-- The writer goes on with a draft that is in order. -/
theorem redraft (hw : Watched.Consistent s ⟨⟨⟨committed, some ⟨c, draft⟩⟩, held⟩, spoiled⟩)
    {db : Database} (hdb : ∃ t, Orderly s db t) :
    Watched.Consistent s ⟨⟨⟨committed, some ⟨c, db⟩⟩, held⟩, spoiled⟩ := by
  refine ⟨hw.committed, ?_, ?_, ?_, hw.nodup, hw.spoiled⟩
  · rintro x ⟨⟩ -
    exact hdb
  · rintro x ⟨⟩
    exact hw.held ⟨c, draft⟩ rfl
  · intro c' hheld hspoiled
    exact Store.isWriting_iff.2 (hw.eq_of_held hheld hspoiled).symm

/-- The writer's transaction is spoiled, whether it stays open or not and whatever is in it. -/
theorem spoil (hw : Watched.Consistent s ⟨⟨⟨committed, some ⟨c, draft⟩⟩, held⟩, spoiled⟩)
    {writer : Option Writer} (hwriter : ∀ x, writer = some x → x.connection = c) :
    Watched.Consistent s ⟨⟨⟨committed, writer⟩, held⟩, c :: spoiled⟩ := by
  refine ⟨hw.committed, ?_, ?_, ?_, hw.nodup, ?_⟩
  · intro x hx hspoiled
    exact absurd (List.mem_cons.2 (.inl (hwriter x hx))) hspoiled
  · intro x hx
    exact (hwriter x hx).symm ▸ hw.held _ rfl
  · intro c' hheld hspoiled
    rw [List.mem_cons, not_or] at hspoiled
    exact absurd (hw.eq_of_held hheld hspoiled.2) hspoiled.1
  · intro c' hmem
    rcases List.mem_cons.1 hmem with rfl | hmem
    · exact hw.held _ rfl
    · exact hw.spoiled c' hmem

end

theorem edit_within (hw : w.Consistent s) (ho : s.Opens h)
    (hheld : h.connection ∈ w.session.held) (hc : h.connection ∉ w.spoiled) (e : Edit)
    (mishaps : Mishaps) :
    Watched.Consistent s
      ⟨⟨(h.editWithin w.session.store e mishaps).store, w.session.held⟩,
        if Reply.isRefusal (.answer (h.editWithin w.session.store e mishaps).answer) then
          h.connection :: w.spoiled else w.spoiled⟩ := by
  obtain ⟨⟨⟨committed, writer⟩, held⟩, spoiled⟩ := w
  have hwriting := hw.writing _ hheld hc
  cases writer with
  | none => cases hwriting
  | some x =>
    obtain ⟨connection, draft⟩ := x
    obtain rfl : connection = h.connection := Store.isWriting_iff.1 hwriting
    obtain ⟨t, ht⟩ := hw.draft _ rfl hc
    rcases hr : (e.procedure h.schema).result h.schema ⟨draft, mishaps, [], false⟩ with ⟨answer, d⟩
    change Watched.Consistent s ⟨⟨(Store.run _ h.connection h.schema (e.procedure h.schema)
      mishaps).store, held⟩, if Reply.isRefusal (.answer (Store.run _ h.connection h.schema
        (e.procedure h.schema) mishaps).answer) then h.connection :: spoiled else spoiled⟩
    rw [Store.run_of_writer, hr]
    cases answer with
    | ok a =>
      obtain ⟨step, refusal, hrefusal⟩ | ht' := ht.result ho.akin ho.sound rfl hr
      · cases hrefusal
      · exact hw.redraft ht'
    | error error =>
      by_cases herror : ∃ step refusal, error = .backend step refusal
      · obtain ⟨step, refusal, rfl⟩ := herror
        apply hw.spoil
        intro x hx
        split at hx
        · cases hx
        · cases hx
          rfl
      · obtain ⟨step, refusal, hrefusal⟩ | ht' := ht.result ho.akin ho.sound rfl hr
        · exact absurd ⟨step, refusal, Except.error.inj hrefusal⟩ herror
        · have hcalm : error.failedStep? = none ∧ error.endsTransaction = false := by
            cases error with
            | backend step refusal => exact absurd ⟨step, refusal, rfl⟩ herror
            | _ => exact ⟨rfl, rfl⟩
          simp only [Reply.isRefusal, hcalm.1, hcalm.2]
          exact hw.redraft ht'

theorem moveAll (hw : w.Consistent s) (ho : s.Opens h) (hh : w.session.isHeld h = false)
    (placement : Placement) (ids : List Int) (mishaps : Mishaps) :
    Watched.Consistent s ⟨(w.session.moveAll h placement ids mishaps).2.1, w.spoiled⟩ := by
  induction ids generalizing w mishaps with
  | nil => exact hw
  | cons id rest ih =>
    have hedit : w.session.edit h (.move id placement) mishaps =
        h.edit w.session.store (.move id placement) mishaps := by
      rw [Session.edit, hh]
      rfl
    have hnext := hw.edit_apart ho (.move id placement) mishaps
    rw [← hedit] at hnext
    exact ih hnext hh _

theorem begin (hw : w.Consistent s) (hc : h.connection ∉ w.spoiled) {mishaps : Mishaps}
    {session : Session} (hb : w.session.begin h mishaps = .ok session) :
    Watched.Consistent s ⟨session, w.spoiled⟩ := by
  obtain ⟨store, hstart, rfl⟩ := Session.begin_ok hb
  obtain ⟨hwriter, rfl⟩ := Store.start_ok hstart
  have hidle : ∀ c ∈ w.session.held, c ∈ w.spoiled := by
    intro c hheld
    by_contra hspoiled
    have hwriting := hw.writing c hheld hspoiled
    simp [Store.isWriting, hwriter] at hwriting
  refine ⟨hw.committed, ?_, ?_, ?_, ?_, ?_⟩
  · rintro x ⟨⟩ -
    exact hw.committed
  · rintro x ⟨⟩
    exact List.mem_cons_self
  · intro c hheld hspoiled
    rcases List.mem_cons.1 hheld with rfl | hheld
    · exact Store.isWriting_iff.2 rfl
    · exact absurd (hidle c hheld) hspoiled
  · exact List.nodup_cons.2 ⟨fun hheld => hc (hidle _ hheld), hw.nodup⟩
  · intro c hmem
    exact List.mem_cons_of_mem _ (hw.spoiled c hmem)

theorem release (hw : w.Consistent s) (c : Nat) {store : Store}
    (hcommitted : ∃ t, Orderly s store.committed t)
    (hwriter : ∀ x, store.writer = some x →
      w.session.store.writer = some x ∧ x.connection ≠ c)
    (hothers : ∀ c' ≠ c, w.session.store.isWriting c' = true → store.isWriting c' = true) :
    Watched.Consistent s ⟨⟨store, w.session.held.erase c⟩, w.spoiled.filter (· != c)⟩ := by
  have hspoiled : ∀ c' ≠ c, c' ∉ w.spoiled.filter (· != c) → c' ∉ w.spoiled := by
    intro c' hne hnot hmem
    exact hnot (List.mem_filter.2 ⟨hmem, by simpa using hne⟩)
  refine ⟨hcommitted, ?_, ?_, ?_, hw.nodup.erase c, ?_⟩
  · intro x hx hnot
    obtain ⟨hx', hne⟩ := hwriter x hx
    exact hw.draft x hx' (hspoiled _ hne hnot)
  · intro x hx
    obtain ⟨hx', hne⟩ := hwriter x hx
    exact (List.mem_erase_of_ne hne).2 (hw.held x hx')
  · intro c' hheld hnot
    obtain ⟨hne, hheld⟩ := hw.nodup.mem_erase_iff.1 hheld
    exact hothers c' hne (hw.writing c' hheld (hspoiled c' hne hnot))
  · intro c' hmem
    obtain ⟨hmem, hne⟩ := List.mem_filter.1 hmem
    exact (List.mem_erase_of_ne (by simpa using hne)).2 (hw.spoiled c' hmem)

theorem abandon (hw : w.Consistent s) (c : Nat) :
    Watched.Consistent s ⟨⟨w.session.store.abandon c, w.session.held.erase c⟩,
      w.spoiled.filter (· != c)⟩ := by
  obtain ⟨⟨⟨committed, writer⟩, held⟩, spoiled⟩ := w
  by_cases hwriting : Store.isWriting ⟨committed, writer⟩ c = true
  · have habandon : Store.abandon ⟨committed, writer⟩ c = ⟨committed, none⟩ := by
      rw [Store.abandon, if_pos hwriting]
    simp only [habandon]
    refine hw.release c hw.committed ?_ ?_
    · intro x hx
      cases hx
    · intro c' hne hwriting'
      cases writer with
      | none => cases hwriting
      | some x =>
        have hc := Store.isWriting_iff.1 hwriting
        exact absurd (hc.symm.trans (Store.isWriting_iff.1 hwriting')).symm hne
  · have habandon : Store.abandon ⟨committed, writer⟩ c = ⟨committed, writer⟩ := by
      rw [Store.abandon, if_neg hwriting]
    simp only [habandon]
    refine hw.release c hw.committed ?_ fun _ _ h => h
    rintro x hx
    refine ⟨hx, ?_⟩
    rintro rfl
    obtain rfl : writer = some x := hx
    exact hwriting (Store.isWriting_iff.2 rfl)

theorem commit (hw : w.Consistent s) {c : Nat} (hc : c ∉ w.spoiled) {store : Store}
    (hcommit : w.session.store.commit c = .ok store) :
    Watched.Consistent s ⟨⟨store, w.session.held.erase c⟩, w.spoiled.filter (· != c)⟩ := by
  obtain ⟨⟨⟨committed, writer⟩, held⟩, spoiled⟩ := w
  cases writer with
  | none => cases hcommit
  | some x =>
    by_cases hx : x.connection = c
    · simp only [Store.commit, hx, if_true, Except.ok.injEq] at hcommit
      subst hcommit
      apply hw.release c (hw.draft x rfl (by rwa [hx]))
      · intro x hx
        cases hx
      · intro c' hne hwriting
        exact absurd (hx.symm.trans (Store.isWriting_iff.1 hwriting)).symm hne
    · simp [Store.commit, hx] at hcommit

theorem finish (hw : w.Consistent s) {ending : Ending} {mishaps : Mishaps}
    (ha : w.allows (h, .finish ending, mishaps) = true) :
    Watched.Consistent s ⟨(w.session.finish h ending mishaps).2,
      w.spoiled.filter (· != h.connection)⟩ := by
  unfold Session.finish
  cases hclose : ending.close h.connection mishaps w.session.store with
  | error e => exact hw.abandon h.connection
  | ok store =>
    cases ending with
    | commit =>
      have hc : h.connection ∉ w.spoiled := by simpa [allows] using ha
      cases hm : mishaps.head?.join with
      | some refusal => simp [Ending.close, hm] at hclose
      | none =>
        simp only [Ending.close, hm] at hclose
        exact hw.commit hc hclose
    | rollback =>
      have hstore : store = w.session.store.abandon h.connection := by
        unfold Ending.close Store.rollback at hclose
        simp only at hclose
        split at hclose
        · exact (Except.ok.inj hclose).symm
        · cases hclose
      rw [hstore]
      exact hw.abandon h.connection
    | drop =>
      obtain rfl := Except.ok.inj hclose
      exact hw.abandon h.connection

theorem perform (hw : w.Consistent s) {x : Handle × Command × Mishaps} (ho : s.Opens x.1)
    (ha : w.allows x = true) : (w.perform x).Consistent s := by
  obtain ⟨h, command, mishaps⟩ := x
  cases command with
  | edit e =>
    have hc : h.connection ∉ w.spoiled := by simpa [allows] using ha
    by_cases hheld : h.connection ∈ w.session.held
    · have hh : w.session.isHeld h = true := by simpa [Session.isHeld] using hheld
      have hedit := hw.edit_within ho hheld hc e mishaps
      simp only [Watched.perform, Session.perform, Session.edit, hh, if_true, Bool.true_and]
      exact hedit
    · have hh : w.session.isHeld h = false := by simpa [Session.isHeld] using hheld
      simp only [Watched.perform, Session.perform, Session.edit, hh, Bool.false_and,
        Bool.false_eq_true, if_false]
      exact hw.edit_apart ho e mishaps
  | moveAll ids placement =>
    have hh : w.session.isHeld h = false := by simpa [allows] using ha
    simp only [Watched.perform, Session.perform, hh, Bool.false_and, Bool.false_eq_true, if_false]
    exact hw.moveAll ho hh placement ids mishaps
  | begin =>
    have hc : h.connection ∉ w.spoiled := by simpa [allows] using ha
    unfold Watched.perform Session.perform
    cases hb : w.session.begin h mishaps with
    | error e => simpa [hb, Reply.isRefusal] using hw
    | ok session => simpa [hb, Reply.isRefusal] using hw.begin hc hb
  | finish ending => exact hw.finish ha
  | endBehind =>
    have hh : w.session.isHeld h = false := by simpa [allows] using ha
    have hwriting : w.session.store.isWriting h.connection = false :=
      hw.not_writing (by simpa [Session.isHeld] using hh)
    have hsame : w.session.store.abandon h.connection = w.session.store := by
      rw [Store.abandon, hwriting]
      rfl
    simp only [Watched.perform, Session.perform, hsame, hh, Bool.false_and, Bool.false_eq_true,
      if_false]
    exact hw

theorem run (hw : w.Consistent s) {steps : List (Handle × Command × Mishaps)}
    (ho : ∀ x ∈ steps, s.Opens x.1) (hc : w.Careful steps) : (w.run steps).Consistent s := by
  induction steps generalizing w with
  | nil => exact hw
  | cons x rest ih =>
    rw [List.forall_mem_cons] at ho
    exact ih (hw.perform ho.1 hc.1) ho.2 hc.2

end Watched.Consistent

namespace Handle

variable {h : Handle} {s : Store}

def ensureAll (s : Store) (handles : List Handle) : Store :=
  handles.foldl (fun s g => (g.ensure s).2) s

theorem orderly_ensureAll {schema : Schema} {t : Table} (hs : s.writer = none)
    (ht : Orderly schema s.committed t) (handles : List Handle) :
    (ensureAll s handles).writer = none ∧ Orderly schema (ensureAll s handles).committed t := by
  induction handles generalizing s with
  | nil => exact ⟨hs, ht⟩
  | cons g rest ih =>
    obtain ⟨committed, writer⟩ := s
    obtain rfl : writer = none := hs
    have hensure : (g.ensure ⟨committed, none⟩).2 =
        ⟨(Database.install g.schema committed).2, none⟩ := by
      simp [ensure, Store.view, Store.mayWrite, Store.replace]
    rw [ensureAll, List.foldl_cons, hensure]
    refine ih rfl ⟨?_, ht.declares, ht.ids, ht.trees⟩
    exact Database.table?_install ht.found

end Handle

/-- Handles on the trees of one table with covered types work in any order, on their own or in
transactions that their users hold, while statements fail at will. If spoiled transactions are let
go of and none is ended behind its user's back, then after every step nothing is wrong with any
tree, as far as it is seen outside of spoiled transactions. It is not seen while another connection
keeps the file to itself. -/
theorem checks_stay_clean {m : Mapping} {h : Handle} {s : Store}
    (hm : m.validate = .ok h.schema) (hcovered : h.schema.IsCovered)
    (he : h.ensure {} = (.ok (), s)) (others : List Handle)
    (steps : List (Handle × Command × Mishaps))
    (ho : ∀ x ∈ steps, h.schema.Akin x.1.schema ∧ ∃ m : Mapping, m.validate = .ok x.1.schema)
    (hc : Watched.Careful ⟨⟨Handle.ensureAll s others, []⟩, []⟩ steps) :
    ∀ before after, before ++ after = steps → ∀ g : Handle, h.schema.Akin g.schema →
      g.connection ∉ (Watched.run ⟨⟨Handle.ensureAll s others, []⟩, []⟩ before).spoiled →
      ∀ exclusive, let store := (Session.run ⟨Handle.ensureAll s others, []⟩ before).2.store
        g.read store Reading.check exclusive =
          if exclusive && !store.mayWrite g.connection then .error (.backend .read .locked)
          else .ok [] := by
  obtain ⟨hs, db, supply, rfl, hst, -⟩ := Handle.stands_ensure hm hcovered he
  have hstart : Orderly h.schema db (.ofSchema h.schema) :=
    ⟨hst.keeps.found, hst.keeps.declares, hst.keeps.ids, fun s' _ => ⟨.nil, rfl, .refl _⟩⟩
  obtain ⟨hidle, horderly⟩ := Handle.orderly_ensureAll (s := ⟨db, none⟩) rfl hstart others
  have hconsistent : Watched.Consistent h.schema
      ⟨⟨Handle.ensureAll ⟨db, none⟩ others, []⟩, []⟩ := by
    refine ⟨⟨_, horderly⟩, ?_, ?_, by simp, List.nodup_nil, by simp⟩
    · intro x hx
      rw [hidle] at hx
      cases hx
    · intro x hx
      rw [hidle] at hx
      cases hx
  have hopens : ∀ x ∈ steps, h.schema.Opens x.1 := by
    intro x hx
    obtain ⟨hakin, m', hm'⟩ := ho x hx
    obtain ⟨hfields, hsequence⟩ := Mapping.validate_ok hm'
    exact ⟨hakin, hakin.sound hs hfields hsequence⟩
  rintro before after rfl g hg hspoiled exclusive store
  have hrun := hconsistent.run (fun x hx => hopens x (List.mem_append_left _ hx))
    (Watched.careful_of_append hc)
  obtain ⟨t, ht⟩ := hrun.orderly_view hspoiled
  rw [Watched.session_run] at ht
  rw [Handle.read_eq, ht.read_check hg]

def orchardHandle (n : Nat) : Handle :=
  ⟨n, ⟨⟨"t"⟩, ⟨"id"⟩, ⟨"l"⟩, ⟨"r"⟩, ⟨"parent"⟩, some ⟨⟨"part"⟩, .integer n⟩, [], .left,
    .autoIncrement⟩⟩

def orchardMapping (n : Nat) : Mapping := { table := "t", partition := some ⟨"part", .integer n⟩ }

/-- The second tree grows in a transaction that fails while it makes room, and is let go of. -/
def orchardSteps : List (Handle × Command × Mishaps) :=
  [(orchardHandle 0, .edit (.add [] .root), []), (orchardHandle 1, .begin, []),
    (orchardHandle 1, .edit (.add [] .root), []),
    (orchardHandle 0, .edit (.add [] (.firstChildOf 1)), []),
    (orchardHandle 1, .edit (.add [] (.firstChildOf 2)), [none, none, some (.interrupted false)]),
    (orchardHandle 1, .finish .rollback, []), (orchardHandle 0, .moveAll [1] .root, [])]

def orchardStore : Store := Handle.ensureAll ((orchardHandle 0).ensure {}).2 [orchardHandle 1]

/-- While the second tree grows, the first one is only seen as long as the file is shared. -/
theorem checks_stay_clean_orchard :
    let amid := (Session.run ⟨orchardStore, []⟩ (orchardSteps.take 5)).2.store
    let after := (Session.run ⟨orchardStore, []⟩ orchardSteps).2.store
    Watched.Careful ⟨⟨orchardStore, []⟩, []⟩ orchardSteps ∧
      (Watched.run ⟨⟨orchardStore, []⟩, []⟩ (orchardSteps.take 5)).spoiled = [1] ∧
      (orchardHandle 0).read amid Reading.check = .ok [] ∧
      (orchardHandle 0).read amid Reading.check true = .error (.backend .read .locked) ∧
      (orchardHandle 1).read after Reading.check true = .ok [] := by
  intro amid after
  have hm : ∀ n : Nat, n < 2 → (orchardMapping n).validate = .ok (orchardHandle n).schema := by
    decide +kernel
  have he : (orchardHandle 0).ensure {} = (.ok (), ((orchardHandle 0).ensure {}).2) := by
    decide +kernel
  have hakin : ∀ n, (orchardHandle 0).schema.Akin (orchardHandle n).schema :=
    fun n => ⟨rfl, rfl, rfl, rfl, rfl, rfl, rfl⟩
  have ho : ∀ x ∈ orchardSteps, (orchardHandle 0).schema.Akin x.1.schema ∧
      ∃ m : Mapping, m.validate = .ok x.1.schema := by
    intro x hx
    obtain ⟨n, hn, hxn⟩ : ∃ n < 2, x.1 = orchardHandle n := by
      revert x
      decide
    rw [hxn]
    exact ⟨hakin n, _, hm n hn⟩
  have hc : Watched.Careful ⟨⟨orchardStore, []⟩, []⟩ orchardSteps := by decide +kernel
  have hspoiled : (Watched.run ⟨⟨orchardStore, []⟩, []⟩ (orchardSteps.take 5)).spoiled = [1] := by
    decide +kernel
  have hfirst : (orchardHandle 0).connection ∉
      (Watched.run ⟨⟨orchardStore, []⟩, []⟩ (orchardSteps.take 5)).spoiled := by
    rw [hspoiled]
    decide
  have hsecond : (orchardHandle 1).connection ∉
      (Watched.run ⟨⟨orchardStore, []⟩, []⟩ orchardSteps).spoiled := by
    decide +kernel
  have hclean : ∀ before after, before ++ after = orchardSteps → ∀ g : Handle,
      (orchardHandle 0).schema.Akin g.schema →
      g.connection ∉ (Watched.run ⟨⟨orchardStore, []⟩, []⟩ before).spoiled →
      ∀ exclusive, let store := (Session.run ⟨orchardStore, []⟩ before).2.store
        g.read store Reading.check exclusive =
          if exclusive && !store.mayWrite g.connection then .error (.backend .read .locked)
          else .ok [] :=
    checks_stay_clean (hm 0 (by decide)) (by decide) he [orchardHandle 1] orchardSteps ho hc
  have hamid := hclean (orchardSteps.take 5) (orchardSteps.drop 5)
    (List.take_append_drop 5 orchardSteps) (orchardHandle 0) (hakin 0) hfirst
  have hafter := hclean orchardSteps [] (List.append_nil orchardSteps) (orchardHandle 1)
    (hakin 1) hsecond true
  have hshut : amid.mayWrite (orchardHandle 0).connection = false := by decide +kernel
  have hidle : after.mayWrite (orchardHandle 1).connection = true := by decide +kernel
  refine ⟨hc, hspoiled, hamid false, (hamid true).trans ?_, hafter.trans ?_⟩
  · exact if_pos (by rw [hshut]; rfl)
  · exact if_neg (by rw [hidle]; decide)

end NestedSet
