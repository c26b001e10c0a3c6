import Mathlib
import NestedSet.Proofs.Transcript
import NestedSet.Session

/-!
# All or nothing

An edit through a handle begins a transaction, runs its procedure and commits.
Whatever statement fails, and whether or not the failure ends the transaction
by itself, the store is afterwards the one before the edit. A transaction held
over several edits works on a draft; while it lasts nobody else writes, so
letting go of it leaves the store that it began with.
-/

set_option autoImplicit false

namespace NestedSet

/-! ### An edit in a transaction of its own -/

inductive Call where
  | begin
  | issue (q : Request)
  | commit
  deriving DecidableEq, Repr

def Call.step : Call → Step
  | .begin => .begin
  | .issue q => q.step
  | .commit => .commit

namespace Handle

def issued (h : Handle) (db : Database) (e : Edit) (mishaps : Mishaps) :
    List (Call × Option Refusal) :=
  ((e.procedure h.schema).calls h.schema { database := db, mishaps := mishaps }).map fun c =>
    (.issue c.1, c.2)

def closing (h : Handle) (db : Database) (e : Edit) (mishaps : Mishaps) :
    List (Call × Option Refusal) :=
  match (e.procedure h.schema).result h.schema { database := db, mishaps := mishaps } with
  | (.ok _, d) => [(.commit, d.mishaps.head?.join)]
  | (.error _, _) => []

/-- The statements of an edit, each with the refusal it met, if it met one. -/
def calls (h : Handle) (s : Store) (e : Edit) (mishaps : Mishaps) :
    List (Call × Option Refusal) :=
  match mishaps.head?.join, s.writer with
  | some refusal, _ => [(.begin, some refusal)]
  | none, some _ => [(.begin, some .locked)]
  | none, none =>
    (.begin, none) :: (h.issued s.committed e mishaps.tail ++ h.closing s.committed e mishaps.tail)

variable {h : Handle} {s : Store} {db : Database} {e : Edit} {mishaps : Mishaps}

theorem edit_of_mishap {refusal : Refusal} (hm : mishaps.head?.join = some refusal) :
    h.edit s e mishaps = ⟨.error (.backend .begin refusal), s, [], mishaps.tail⟩ := by
  simp only [edit, Store.atomically, hm]

theorem edit_of_writer {w : Writer} (hm : mishaps.head?.join = none) (hw : s.writer = some w) :
    h.edit s e mishaps = ⟨.error (.backend .begin .locked), s, [], mishaps.tail⟩ := by
  simp only [edit, Store.atomically, Store.start, hm, hw]

theorem edit_of_ok {a : Answer} {d : Desk} (hm : mishaps.head?.join = none)
    (hr : (e.procedure h.schema).result h.schema { database := db, mishaps := mishaps.tail } =
      (.ok a, d)) :
    h.edit ⟨db, none⟩ e mishaps =
      match d.mishaps.head?.join with
      | some refusal => ⟨.error (.backend .commit refusal), ⟨db, none⟩, d.events, d.mishaps.tail⟩
      | none => ⟨.ok a, ⟨d.database, none⟩, d.events, d.mishaps.tail⟩ := by
  cases hc : d.mishaps.head?.join <;>
    simp [edit, Store.atomically, hm, Store.start, Store.run, Store.view, Store.mayWrite, hr,
      Store.settle, hc, Store.replace, Store.commit, Store.abandon, Store.isWriting]

/-- The events of an edit that failed: the database's refusal is reported, and the rollback if
the failure had ended the transaction before. -/
def farewell (e : Edit) (error : TreeError) : List Event :=
  (error.failedStep?.toList.map fun step => .rollingBack e.operation step error) ++
  (if error.endsTransaction then
    [.rollbackFailed e.operation (.backend .rollback .nothingToRollBack)] else [])

theorem edit_of_error {error : TreeError} {d : Desk} (hm : mishaps.head?.join = none)
    (hr : (e.procedure h.schema).result h.schema { database := db, mishaps := mishaps.tail } =
      (.error error, d)) :
    h.edit ⟨db, none⟩ e mishaps =
      ⟨.error error, ⟨db, none⟩, d.events ++ farewell e error, d.mishaps⟩ := by
  cases he : error.endsTransaction <;>
    simp [edit, Store.atomically, hm, Store.start, Store.run, Store.view, Store.mayWrite, hr,
      Store.undo, he, Store.replace, Store.rollback, Store.abandon, Store.isWriting, farewell]

theorem store_of_error {error : TreeError} (hr : (h.edit s e mishaps).answer = .error error) :
    (h.edit s e mishaps).store = s := by
  cases hm : mishaps.head?.join with
  | some refusal => rw [edit_of_mishap hm]
  | none =>
    obtain ⟨db, writer⟩ := s
    cases writer with
    | some w => rw [edit_of_writer hm rfl]
    | none =>
      rcases hp : (e.procedure h.schema).result h.schema
        { database := db, mishaps := mishaps.tail } with ⟨answer, d⟩
      cases answer with
      | error error' => rw [edit_of_error hm hp]
      | ok a =>
        rw [edit_of_ok hm hp] at hr ⊢
        cases hc : d.mishaps.head?.join with
        | some refusal => rfl
        | none => simp [hc] at hr

theorem writer_edit (h : Handle) (db : Database) (e : Edit) (mishaps : Mishaps) :
    (h.edit ⟨db, none⟩ e mishaps).store.writer = none := by
  cases hm : mishaps.head?.join with
  | some refusal => rw [edit_of_mishap hm]
  | none =>
    rcases hr : (e.procedure h.schema).result h.schema
      { database := db, mishaps := mishaps.tail } with ⟨answer, d⟩
    cases answer with
    | error error => rw [edit_of_error hm hr]
    | ok a =>
      rw [edit_of_ok hm hr]
      cases d.mishaps.head?.join <;> rfl

theorem mem_issued {c : Call × Option Refusal} :
    c ∈ h.issued db e mishaps ↔ ∃ q verdict,
      (q, verdict) ∈ (e.procedure h.schema).calls h.schema { database := db, mishaps := mishaps } ∧
        c = (.issue q, verdict) := by
  rw [issued, List.mem_map]
  constructor
  · rintro ⟨⟨q, verdict⟩, hq, rfl⟩
    exact ⟨q, verdict, hq, rfl⟩
  · rintro ⟨q, verdict, hq, rfl⟩
    exact ⟨(q, verdict), hq, rfl⟩

theorem answer_of_mem_calls {call : Call} {refusal : Refusal}
    (hc : (call, some refusal) ∈ h.calls s e mishaps) :
    (h.edit s e mishaps).answer = .error (.backend call.step refusal) := by
  unfold calls at hc
  cases hm : mishaps.head?.join with
  | some refusal' =>
    simp only [hm, List.mem_singleton, Prod.mk.injEq, Option.some.injEq] at hc
    rw [edit_of_mishap hm, hc.1, hc.2]
    rfl
  | none =>
    obtain ⟨db, writer⟩ := s
    cases writer with
    | some w =>
      simp only [hm, List.mem_singleton, Prod.mk.injEq, Option.some.injEq] at hc
      rw [edit_of_writer hm rfl, hc.1, hc.2]
      rfl
    | none =>
      simp only [hm, List.mem_cons, Prod.mk.injEq, reduceCtorEq, and_false, false_or,
        List.mem_append] at hc
      rcases hc with hc | hc
      · obtain ⟨q, verdict, hq, heq⟩ := mem_issued.1 hc
        obtain ⟨rfl, rfl⟩ := Prod.mk.inj heq
        rw [edit_of_error hm (Prod.ext (Procedure.answer_of_mem_calls hq) rfl)]
        rfl
      · unfold closing at hc
        split at hc
        next a d hp =>
          simp only [List.mem_singleton, Prod.mk.injEq] at hc
          rw [edit_of_ok hm hp, ← hc.2, hc.1]
          rfl
        next => cases hc

theorem exists_mem_calls {step : Step} {refusal : Refusal}
    (ha : (h.edit s e mishaps).answer = .error (.backend step refusal)) :
    ∃ call, (call, some refusal) ∈ h.calls s e mishaps ∧ call.step = step := by
  unfold calls
  cases hm : mishaps.head?.join with
  | some refusal' =>
    rw [edit_of_mishap hm] at ha
    simp only [Except.error.injEq, TreeError.backend.injEq] at ha
    exact ⟨.begin, by simp [ha.2], ha.1⟩
  | none =>
    obtain ⟨db, writer⟩ := s
    cases writer with
    | some w =>
      rw [edit_of_writer hm rfl] at ha
      simp only [Except.error.injEq, TreeError.backend.injEq] at ha
      exact ⟨.begin, by simp [ha.2], ha.1⟩
    | none =>
      rcases hp : (e.procedure h.schema).result h.schema
        { database := db, mishaps := mishaps.tail } with ⟨answer, d⟩
      cases answer with
      | error error =>
        rw [edit_of_error hm hp] at ha
        obtain ⟨q, hq, hstep⟩ := Procedure.exists_mem_calls (e.honest_procedure h.schema)
          ((congrArg Prod.fst hp).trans ha)
        exact ⟨.issue q, List.mem_cons_of_mem _ (List.mem_append_left _
          (mem_issued.2 ⟨q, _, hq, rfl⟩)), hstep⟩
      | ok a =>
        rw [edit_of_ok hm hp] at ha
        cases hc : d.mishaps.head?.join with
        | none => simp [hc] at ha
        | some refusal' =>
          simp only [hc, Except.error.injEq, TreeError.backend.injEq] at ha
          refine ⟨.commit, List.mem_cons_of_mem _ (List.mem_append_right _ ?_), ha.1⟩
          simp only [closing, hp, hc, ha.2]
          exact List.mem_singleton_self _

theorem mem_closing_of_mishap {call : Call} {verdict : Option Refusal}
    (hk : (call, verdict) ∈ h.closing db e mishaps) {fate : Mishaps}
    (ha : ∀ j < (h.issued db e mishaps).length, fate[j]?.join = mishaps[j]?.join)
    {refusal : Refusal} (hf : fate[(h.issued db e mishaps).length]? = some (some refusal)) :
    (call, some refusal) ∈ h.closing db e fate := by
  rw [issued, List.length_map] at ha hf
  obtain ⟨hcalls, hresult⟩ := Procedure.calls_of_agree ha
  have hmishaps := Procedure.mishaps_result h.schema (e.procedure h.schema)
    { database := db, mishaps := fate }
  rw [hcalls] at hmishaps
  unfold closing at hk ⊢
  rcases hp : (e.procedure h.schema).result h.schema
    { database := db, mishaps := mishaps } with ⟨answer, d⟩
  rcases hp' : (e.procedure h.schema).result h.schema
    { database := db, mishaps := fate } with ⟨answer', d'⟩
  rw [hp, hp'] at hresult
  rw [hp'] at hmishaps
  simp only at hresult hmishaps
  rw [hp] at hk
  rw [hresult]
  cases answer with
  | error error => cases hk
  | ok a =>
    simp only [List.mem_singleton, Prod.mk.injEq] at hk ⊢
    rw [hmishaps, List.head?_drop, hf]
    exact ⟨hk.1, rfl⟩

/-- Whichever statement of an edit is made to fail, it is that statement which is refused. -/
theorem mem_calls_of_mishap {k : Nat} {call : Call} {verdict : Option Refusal}
    (hk : (h.calls s e mishaps)[k]? = some (call, verdict)) {fate : Mishaps}
    (ha : ∀ j < k, fate[j]?.join = mishaps[j]?.join) {refusal : Refusal}
    (hf : fate[k]? = some (some refusal)) : (call, some refusal) ∈ h.calls s e fate := by
  unfold calls at hk
  cases k with
  | zero =>
    have hcall : call = .begin := by
      split at hk <;> exact (congrArg Prod.fst (Option.some.inj hk)).symm
    have hfate : fate.head?.join = some refusal := by
      rw [List.head?_eq_getElem?, hf, Option.join_some]
    simp [calls, hfate, hcall]
  | succ k =>
    split at hk
    · cases hk
    · cases hk
    next hm hw =>
      have hfate : fate.head?.join = none := by
        rw [← hm, List.head?_eq_getElem?, List.head?_eq_getElem?]
        exact ha 0 (Nat.succ_pos k)
      have htail : ∀ j < k, fate.tail[j]?.join = mishaps.tail[j]?.join := by
        intro j hj
        rw [List.getElem?_tail, List.getElem?_tail]
        exact ha (j + 1) (by omega)
      have hft : fate.tail[k]? = some (some refusal) := by
        rw [List.getElem?_tail]
        exact hf
      simp only [calls, hfate, hw]
      refine List.mem_cons_of_mem _ (List.mem_append.2 ?_)
      rw [List.getElem?_cons_succ] at hk
      by_cases hlt : k < (h.issued s.committed e mishaps.tail).length
      · rw [List.getElem?_append_left hlt, issued, List.getElem?_map, Option.map_eq_some_iff] at hk
        obtain ⟨⟨q, v⟩, hq, heq⟩ := hk
        rw [← (Prod.mk.inj heq).1]
        exact .inl (mem_issued.2 ⟨q, _, Procedure.mem_calls_of_mishap hq htail hft, rfl⟩)
      · rw [List.getElem?_append_right (by omega)] at hk
        have hmem := List.mem_of_getElem? hk
        have hone : (h.closing s.committed e mishaps.tail).length ≤ 1 := by
          unfold closing
          split <;> simp
        have hlen : k = (h.issued s.committed e mishaps.tail).length := by
          have := (List.getElem?_eq_some_iff.1 hk).1
          omega
        exact .inr (mem_closing_of_mishap hmem (hlen ▸ htail) (hlen ▸ hft))

/-- If the refusal has ended the transaction, the rollback that follows fails, which is reported
beside the same answer. -/
theorem rollbackFailed_mem_events {q : Request} {refusal : Refusal}
    (hq : (.issue q, some refusal) ∈ h.calls s e mishaps) (hr : refusal.endsTransaction = true) :
    .rollbackFailed e.operation (.backend .rollback .nothingToRollBack) ∈
      (h.edit s e mishaps).events := by
  have ha := answer_of_mem_calls hq
  unfold calls at hq
  split at hq
  · simp at hq
  · simp at hq
  next hm hw =>
    obtain ⟨db, writer⟩ := s
    obtain rfl : writer = none := hw
    rcases hp : (e.procedure h.schema).result h.schema
      { database := db, mishaps := mishaps.tail } with ⟨answer, d⟩
    cases answer with
    | error error =>
      rw [edit_of_error hm hp] at ha ⊢
      obtain rfl : error = .backend q.step refusal := Except.error.inj ha
      simp [farewell, TreeError.endsTransaction, hr]
    | ok a =>
      have hissued : (Call.issue q, some refusal) ∈ h.issued db e mishaps.tail := by
        simpa [closing, hp] using hq
      obtain ⟨q', verdict, hq', heq⟩ := mem_issued.1 hissued
      rw [← (Prod.mk.inj heq).2] at hq'
      have hanswer := Procedure.answer_of_mem_calls hq'
      rw [hp] at hanswer
      cases hanswer

end Handle

/-! ### A transaction held over several edits -/

namespace Store

/-- Nothing is committed past a connection that is still writing, and it does not begin to. -/
def Respects (c : Nat) (s t : Store) : Prop :=
  t.isWriting c = true → s.isWriting c = true ∧ t.committed = s.committed

variable {c d : Nat} {s t : Store}

theorem respects_refl (c : Nat) (s : Store) : s.Respects c s := fun h => ⟨h, rfl⟩

theorem Respects.trans {u : Store} (hst : s.Respects c t) (htu : t.Respects c u) :
    s.Respects c u := by
  intro h
  have hu := htu h
  have ht := hst hu.1
  exact ⟨ht.1, hu.2.trans ht.2⟩

theorem respects_of_writer_eq_none (h : t.writer = none) : s.Respects c t := by
  intro hw
  simp [isWriting, h] at hw

theorem respects_abandon (c d : Nat) (s : Store) : s.Respects c (s.abandon d) := by
  unfold abandon
  by_cases h : s.isWriting d = true
  · rw [if_pos h]
    exact respects_of_writer_eq_none rfl
  · rw [if_neg h]
    exact respects_refl c s

theorem start_ok (h : s.start d = .ok t) :
    s.writer = none ∧ t = ⟨s.committed, some ⟨d, s.committed⟩⟩ := by
  unfold start at h
  cases hw : s.writer with
  | some w => simp [hw] at h
  | none =>
    simp only [hw, Except.ok.injEq] at h
    exact ⟨rfl, h.symm⟩

theorem respects_start (h : s.start d = .ok t) (hd : d ≠ c) : s.Respects c t := by
  intro hw
  obtain ⟨-, rfl⟩ := start_ok h
  simp [isWriting, hd] at hw

theorem respects_commit (h : s.commit d = .ok t) : s.Respects c t := by
  unfold commit at h
  split at h
  next w hw =>
    split at h
    · obtain rfl := Except.ok.inj h
      exact respects_of_writer_eq_none rfl
    · cases h
  next => cases h

theorem respects_rollback (h : s.rollback d = .ok t) : s.Respects c t := by
  unfold rollback at h
  split at h
  · obtain rfl := Except.ok.inj h
    exact respects_abandon c d s
  · cases h

theorem respects_close {ending : Ending} {mishaps : Mishaps}
    (h : ending.close d mishaps s = .ok t) : s.Respects c t := by
  cases ending with
  | commit =>
    unfold Ending.close at h
    cases hm : mishaps.head?.join with
    | some refusal => simp [hm] at h
    | none =>
      simp only [hm] at h
      exact respects_commit h
  | rollback => exact respects_rollback h
  | drop =>
    obtain rfl := Except.ok.inj h
    exact respects_abandon c d s

theorem isWriting_replace (c d : Nat) (s : Store) (db : Database) :
    (s.replace d db).isWriting c = s.isWriting c := by
  obtain ⟨committed, writer⟩ := s
  cases writer with
  | none => rfl
  | some w =>
    by_cases h : w.connection = d <;> simp [replace, isWriting, h]

theorem replace_view (c : Nat) (s : Store) : s.replace c (s.view c) = s := by
  obtain ⟨committed, writer⟩ := s
  cases writer with
  | none => rfl
  | some w =>
    obtain ⟨connection, draft⟩ := w
    by_cases h : connection = c <;> simp [replace, view, h]

theorem view_replace (c : Nat) (s : Store) (db : Database) : (s.replace c db).view c = db := by
  obtain ⟨committed, writer⟩ := s
  cases writer with
  | none => rfl
  | some w => by_cases h : w.connection = c <;> simp [replace, view, h]

theorem committed_replace_of_isWriting (h : s.isWriting c = true) (db : Database) :
    (s.replace c db).committed = s.committed := by
  obtain ⟨committed, writer⟩ := s
  cases writer with
  | none => cases h
  | some w =>
    have hc : w.connection = c := by simpa [isWriting] using h
    simp [replace, hc]

theorem mayWrite_of_isWriting (h : s.isWriting c = true) (hd : d ≠ c) : s.mayWrite d = false := by
  obtain ⟨committed, writer⟩ := s
  cases writer with
  | none => cases h
  | some w =>
    have hc : w.connection = c := by simpa [isWriting] using h
    simpa [mayWrite, hc] using fun h => hd h.symm

theorem respects_run {α : Type} (schema : Schema) (p : Procedure α) (mishaps : Mishaps) :
    s.Respects c (s.run d schema p mishaps).store := by
  have hkept : s.Respects c (s.replace d
      (p.result schema ⟨s.view d, mishaps, [], !s.mayWrite d⟩).2.database) := by
    intro h
    rw [isWriting_replace] at h
    refine ⟨h, ?_⟩
    by_cases hd : d = c
    · rw [hd]
      exact committed_replace_of_isWriting h _
    · rw [Procedure.database_result_of_locked (by simp [mayWrite_of_isWriting h hd]),
        replace_view]
  unfold run
  split
  next answer desk hp =>
    rw [hp] at hkept
    cases answer with
    | ok a => exact hkept
    | error e =>
      by_cases he : (e.endsTransaction && s.isWriting d) = true
      · simp only [he, if_true]
        exact respects_abandon c d s
      · simp only [he]
        exact hkept

theorem respects_edit (h : Handle) (e : Edit) (mishaps : Mishaps) :
    s.Respects c (h.edit s e mishaps).store := by
  cases hr : (h.edit s e mishaps).answer with
  | error error =>
    rw [Handle.store_of_error hr]
    exact respects_refl c s
  | ok a =>
    cases hm : mishaps.head?.join with
    | some refusal => simp [Handle.edit_of_mishap hm] at hr
    | none =>
      obtain ⟨db, writer⟩ := s
      cases writer with
      | some w =>
        rw [Handle.edit_of_writer hm rfl] at hr
        cases hr
      | none =>
        apply respects_of_writer_eq_none
        rcases hp : (e.procedure h.schema).result h.schema
          { database := db, mishaps := mishaps.tail } with ⟨answer, d⟩
        cases answer with
        | error error => rw [Handle.edit_of_error hm hp]
        | ok b =>
          rw [Handle.edit_of_ok hm hp]
          cases d.mishaps.head?.join <;> rfl

end Store

def Command.isWithin : Command → Bool
  | .begin => false
  | .finish _ => false
  | _ => true

namespace Session

variable {c : Nat} {s t : Session} {h : Handle}

/-- The user of a connection has a transaction, begun on the given database. -/
def Holds (c : Nat) (db : Database) (s : Session) : Prop :=
  c ∈ s.held ∧ (s.store.isWriting c = true → s.store.committed = db)

theorem holds_of_respects {db : Database} (hs : s.Holds c db) (hheld : c ∈ t.held)
    (hr : s.store.Respects c t.store) : t.Holds c db :=
  ⟨hheld, fun hw => (hr hw).2.trans (hs.2 (hr hw).1)⟩

theorem respects_edit (e : Edit) (mishaps : Mishaps) :
    s.store.Respects c (s.edit h e mishaps).store := by
  unfold edit
  by_cases hh : s.isHeld h = true
  · rw [if_pos hh]
    exact Store.respects_run _ _ _
  · rw [if_neg hh]
    exact Store.respects_edit h e mishaps

/-- An edit, whichever transaction it is in, comes to what its procedure makes of what the handle
sees, unless a transaction of its own cannot be begun or committed. -/
theorem edit_cases (s : Session) (h : Handle) (e : Edit) (mishaps : Mishaps) :
    (∃ step refusal, (step = .begin ∨ step = .commit) ∧
      (s.edit h e mishaps).answer = .error (.backend step refusal)) ∨
    ∃ d d', d.database = s.store.view h.connection ∧
      (∀ refusal, some refusal ∈ d.mishaps → some refusal ∈ mishaps) ∧
      (e.procedure h.schema).result h.schema d = ((s.edit h e mishaps).answer, d') ∧
      ∀ a, (s.edit h e mishaps).answer = .ok a →
        (s.edit h e mishaps).store.view h.connection = d'.database := by
  unfold edit
  split
  next hheld =>
    unfold Handle.editWithin Store.run
    rcases hr : (e.procedure h.schema).result h.schema ⟨s.store.view h.connection, mishaps, [],
      !s.store.mayWrite h.connection⟩ with ⟨answer, d'⟩
    cases answer with
    | error error => exact .inr ⟨_, d', rfl, fun _ h => h, hr, by simp⟩
    | ok b => exact .inr ⟨_, d', rfl, fun _ h => h, hr, fun _ _ => Store.view_replace _ _ _⟩
  next hheld =>
    obtain ⟨⟨db, writer⟩, held⟩ := s
    cases hm : mishaps.head?.join with
    | some refusal => exact .inl ⟨.begin, refusal, .inl rfl, by rw [Handle.edit_of_mishap hm]⟩
    | none =>
      cases writer with
      | some w => exact .inl ⟨.begin, .locked, .inl rfl, by rw [Handle.edit_of_writer hm rfl]⟩
      | none =>
        rcases hr : (e.procedure h.schema).result h.schema
          { database := db, mishaps := mishaps.tail } with ⟨answer, d'⟩
        have hlater : ∀ refusal, some refusal ∈ mishaps.tail → some refusal ∈ mishaps :=
          fun _ => List.mem_of_mem_tail
        cases answer with
        | error error =>
          rw [Handle.edit_of_error hm hr]
          exact .inr ⟨_, d', rfl, hlater, hr, by simp⟩
        | ok b =>
          rw [Handle.edit_of_ok hm hr]
          cases hk : d'.mishaps.head?.join with
          | some refusal => exact .inl ⟨.commit, refusal, .inr rfl, rfl⟩
          | none => exact .inr ⟨_, d', rfl, hlater, hr, fun _ _ => rfl⟩

theorem exists_result {e : Edit} {mishaps : Mishaps} {a : Answer}
    (ha : (s.edit h e mishaps).answer = .ok a) :
    ∃ d d', d.database = s.store.view h.connection ∧
      (e.procedure h.schema).result h.schema d = (.ok a, d') ∧
      (s.edit h e mishaps).store.view h.connection = d'.database := by
  rcases s.edit_cases h e mishaps with ⟨step, refusal, -, herror⟩ | ⟨d, d', hd, -, hr, hview⟩
  · rw [herror] at ha
    cases ha
  · rw [ha] at hr
    exact ⟨d, d', hd, hr, hview a ha⟩

theorem holds_moveAll {db : Database} (hs : s.Holds c db) (placement : Placement)
    (ids : List Int) (mishaps : Mishaps) : (s.moveAll h placement ids mishaps).2.1.Holds c db := by
  induction ids generalizing s mishaps with
  | nil => exact hs
  | cons id rest ih =>
    have hnext : Holds c db { s with store := (s.edit h (.move id placement) mishaps).store } :=
      holds_of_respects hs hs.1 (respects_edit _ _)
    exact ih hnext _

theorem holds_finish {db : Database} (hs : s.Holds c db) (hc : h.connection ≠ c)
    (ending : Ending) (mishaps : Mishaps) : (s.finish h ending mishaps).2.Holds c db := by
  have hheld : c ∈ s.held.erase h.connection := (List.mem_erase_of_ne hc.symm).2 hs.1
  unfold finish
  cases he : ending.close h.connection mishaps s.store with
  | ok store => exact holds_of_respects hs hheld (Store.respects_close he)
  | error e => exact holds_of_respects hs hheld (Store.respects_abandon _ _ _)

theorem begin_ok {mishaps : Mishaps} (hb : s.begin h mishaps = .ok t) :
    ∃ store, s.store.start h.connection = .ok store ∧ t = ⟨store, h.connection :: s.held⟩ := by
  unfold begin at hb
  split at hb
  · cases hb
  · cases hstart : s.store.start h.connection with
    | error e => simp [hstart, bind, Except.bind] at hb
    | ok store =>
      simp only [hstart, bind, Except.bind, pure, Except.pure, Except.ok.injEq] at hb
      exact ⟨store, rfl, hb.symm⟩

theorem holds_begin {db : Database} (hs : s.Holds c db) (hc : h.connection ≠ c)
    {mishaps : Mishaps} (hb : s.begin h mishaps = .ok t) : t.Holds c db := by
  obtain ⟨store, hstart, rfl⟩ := begin_ok hb
  exact holds_of_respects hs (List.mem_cons_of_mem _ hs.1) (Store.respects_start hstart hc)

theorem holds_perform {db : Database} (hs : s.Holds c db) {command : Command}
    (hw : h.connection = c → command.isWithin = true) (mishaps : Mishaps) :
    (s.perform h command mishaps).2.1.Holds c db := by
  cases command with
  | edit e => exact holds_of_respects hs hs.1 (respects_edit e mishaps)
  | moveAll ids placement => exact holds_moveAll hs placement ids mishaps
  | begin =>
    have hc : h.connection ≠ c := fun hc => by cases hw hc
    simp only [perform]
    cases hb : s.begin h mishaps with
    | ok t => exact holds_begin hs hc hb
    | error e => exact hs
  | finish ending =>
    have hc : h.connection ≠ c := fun hc => by cases hw hc
    exact holds_finish hs hc ending mishaps
  | endBehind => exact holds_of_respects hs hs.1 (Store.respects_abandon _ _ _)

/-- Whatever happens while a transaction is held, other connections included. -/
theorem holds_run {db : Database} (hs : s.Holds c db) (steps : List (Handle × Command × Mishaps))
    (hw : ∀ x ∈ steps, x.1.connection = c → x.2.1.isWithin = true) :
    (s.run steps).2.Holds c db := by
  induction steps generalizing s with
  | nil => exact hs
  | cons x rest ih =>
    obtain ⟨h, command, mishaps⟩ := x
    simp only [run]
    apply ih (holds_perform hs (hw _ List.mem_cons_self) mishaps)
    exact fun y hy => hw y (List.mem_cons_of_mem _ hy)

theorem finish_of_isWriting {ending : Ending} (he : ending ≠ .commit)
    (hw : s.store.isWriting h.connection = true) (mishaps : Mishaps) :
    s.finish h ending mishaps =
      (.ok (), ⟨⟨s.store.committed, none⟩, s.held.erase h.connection⟩) := by
  have ha : s.store.abandon h.connection = ⟨s.store.committed, none⟩ := by
    simp [Store.abandon, hw]
  cases ending with
  | commit => exact absurd rfl he
  | rollback => simp [finish, Ending.close, Store.rollback, hw, ha]
  | drop => simp [finish, Ending.close, ha]

theorem finish_restores {db : Database} (hs : s.Holds h.connection db) {ending : Ending}
    (he : ending ≠ .commit) (hw : s.store.isWriting h.connection = true) (mishaps : Mishaps) :
    (s.finish h ending mishaps).1 = .ok () ∧
      (s.finish h ending mishaps).2.store = ⟨db, none⟩ := by
  rw [finish_of_isWriting he hw, hs.2 hw]
  exact ⟨rfl, rfl⟩

theorem holds_of_begin {mishaps : Mishaps} (hb : s.begin h mishaps = .ok t) :
    t.Holds h.connection s.store.committed ∧ s.store = ⟨s.store.committed, none⟩ := by
  obtain ⟨store, hstart, rfl⟩ := begin_ok hb
  obtain ⟨hwriter, rfl⟩ := Store.start_ok hstart
  exact ⟨⟨List.mem_cons_self, fun _ => rfl⟩, by rw [← hwriter]⟩

end Session

/-- An edit in a transaction of its own takes effect as a whole or not at all, whichever of its
statements fails, and a refused statement is answered by the step it belongs to, also where the
rollback fails in its turn. A held transaction that is still open can always be undone, whatever
was done in it and answered. -/
theorem edits_are_atomic (h : Handle) (s : Session) (e : Edit) (mishaps : Mishaps) :
    (∀ error, (h.edit s.store e mishaps).answer = .error error →
      (h.edit s.store e mishaps).store = s.store) ∧
    (∀ step refusal, (h.edit s.store e mishaps).answer = .error (.backend step refusal) ↔
      ∃ call, (call, some refusal) ∈ h.calls s.store e mishaps ∧ call.step = step) ∧
    (∀ (k : Nat) call verdict, (h.calls s.store e mishaps)[k]? = some (call, verdict) →
      ∀ (fate : Mishaps) refusal, (∀ j < k, fate[j]?.join = mishaps[j]?.join) →
        fate[k]? = some (some refusal) →
        (h.edit s.store e fate).answer = .error (.backend call.step refusal)) ∧
    (∀ q refusal, (.issue q, some refusal) ∈ h.calls s.store e mishaps →
      refusal.endsTransaction = true →
      .rollbackFailed e.operation (.backend .rollback .nothingToRollBack) ∈
        (h.edit s.store e mishaps).events) ∧
    (∀ t, s.begin h mishaps = .ok t → ∀ steps : List (Handle × Command × Mishaps),
      (∀ x ∈ steps, x.1.connection = h.connection → x.2.1.isWithin = true) →
      (t.run steps).2.store.isWriting h.connection = true →
      ∀ ending, ending ≠ .commit → ∀ fate,
        ((t.run steps).2.finish h ending fate).1 = .ok () ∧
        ((t.run steps).2.finish h ending fate).2.store = s.store) := by
  refine ⟨?_, ?_, ?_, ?_, ?_⟩
  · intro error hr
    exact Handle.store_of_error hr
  · intro step refusal
    constructor
    · exact Handle.exists_mem_calls
    · rintro ⟨call, hcall, rfl⟩
      exact Handle.answer_of_mem_calls hcall
  · intro k call verdict hk fate refusal ha hf
    exact Handle.answer_of_mem_calls (Handle.mem_calls_of_mishap hk ha hf)
  · intro q refusal hq hr
    exact Handle.rollbackFailed_mem_events hq hr
  · intro t hb steps hw hwriting ending he fate
    obtain ⟨hholds, hstore⟩ := Session.holds_of_begin hb
    rw [hstore]
    exact Session.finish_restores (Session.holds_run hholds steps hw) he hwriting fate

def plainHandle : Handle :=
  ⟨0, ⟨⟨"t"⟩, ⟨"id"⟩, ⟨"l"⟩, ⟨"r"⟩, ⟨"p"⟩, none, [], .left, .autoIncrement⟩⟩

def plainSession : Session :=
  { store := { committed := { tables := [{ Table.ofSchema plainHandle.schema with
    rows := [⟨1, [("l", .integer 1), ("r", .integer 2), ("p", .null)]⟩]
    fits := by decide }] } } }

/-- The fourth statement of a removal closes the gap. It fails and takes the transaction with
it; a transaction in which the node was removed is rolled back. -/
theorem edits_are_atomic_removal :
    let fate : Mishaps := [none, none, none, some (.interrupted true)]
    let o := plainHandle.edit plainSession.store (.remove 1) fate
    o.answer = .error (.backend .collapse (.interrupted true)) ∧ o.store = plainSession.store ∧
      .rollbackFailed .remove (.backend .rollback .nothingToRollBack) ∈ o.events ∧
      ∃ t, plainSession.begin plainHandle = .ok t ∧
        (t.run [(plainHandle, .edit (.remove 1), [])]).2.store.view 0 ≠ plainSession.store.view 0 ∧
        ((t.run [(plainHandle, .edit (.remove 1), [])]).2.finish plainHandle .rollback []).2.store =
          plainSession.store := by
  intro fate o
  have hcalm := edits_are_atomic plainHandle plainSession (.remove 1) []
  have hfate := edits_are_atomic plainHandle plainSession (.remove 1) fate
  have hanswer := hcalm.2.2.1 3 (.issue (.revise (.pullFollowing ⟨1, 2⟩))) none
    (by decide +kernel) fate (.interrupted true) (by decide) rfl
  refine ⟨hanswer, hfate.1 _ hanswer, ?_, ?_⟩
  · exact hfate.2.2.2.1 (.revise (.pullFollowing ⟨1, 2⟩)) (.interrupted true)
      (by decide +kernel) rfl
  · refine ⟨⟨⟨plainSession.store.committed, some ⟨0, plainSession.store.committed⟩⟩, [0]⟩, rfl,
      by decide +kernel, ?_⟩
    exact (hcalm.2.2.2.2 _ rfl _ (by decide) (by decide +kernel) .rollback (by decide) []).2

end NestedSet
