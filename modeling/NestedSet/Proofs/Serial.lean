import Mathlib
import NestedSet.Proofs.Chronicle
import NestedSet.Proofs.Grouping

/-!
# Serial histories

While several handles work on one store, at most one transaction is open. What
the others ask for meanwhile is refused as it begins, and what they see is what
was committed last. So what was committed is what comes of carrying out, one
after another, the edits that succeeded and the transactions that were
committed, in the order of their commits.
-/

set_option autoImplicit false

namespace NestedSet

namespace Session

variable {s t u : Session}

/-- Carrying out deeds again gives the same replies and leads to a session. -/
def Replays (s : Session) (deeds : List Deed) (t : Session) : Prop :=
  s.run (deeds.map Prod.fst) = (deeds.map Prod.snd, t)

theorem Replays.nil (s : Session) : s.Replays [] s := rfl

theorem Replays.append {deeds more : List Deed} (h : s.Replays deeds t) (h' : t.Replays more u) :
    s.Replays (deeds ++ more) u := by
  unfold Replays at h h' ⊢
  rw [List.map_append, List.map_append, run_append, h, h']

theorem replays_single {h : Handle} {command : Command} {mishaps : Mishaps} {reply : Reply}
    (events : List Event) (hp : s.perform h command mishaps = (reply, t, events)) :
    s.Replays [((h, command, mishaps), reply)] t := by
  simp only [Replays, List.map_cons, List.map_nil, run, hp]

theorem replays_edit {h : Handle} {e : Edit} {mishaps : Mishaps} {store : Store}
    (hs : (s.edit h e mishaps).store = store) :
    s.Replays [((h, .edit e, mishaps), .answer (s.edit h e mishaps).answer)]
      { s with store := store } := by
  subst hs
  exact replays_single _ rfl

end Session

/-! ### What is done for good -/

def AreEdits (connection : Nat) (deeds : List Deed) : Prop :=
  ∀ d ∈ deeds, ∃ (h : Handle) (e : Edit) (mishaps : Mishaps),
    d.1 = (h, .edit e, mishaps) ∧ h.connection = connection

/-- An edit that succeeded on its own, or a transaction from its begin to its commit. -/
inductive IsWhole : List Deed → Prop
  | edit (h : Handle) (e : Edit) (mishaps : Mishaps) (a : Answer) :
      IsWhole [((h, .edit e, mishaps), .answer (.ok a))]
  | transaction (h h' : Handle) (mishaps fate : Mishaps) (deeds : List Deed)
      (same : h'.connection = h.connection) (edits : AreEdits h.connection deeds) :
      IsWhole (((h, .begin, mishaps), .done (.ok ())) ::
        (deeds ++ [((h', .finish .commit, fate), .done (.ok ()))]))

def IsOpen (connection : Nat) (pending : List Deed) : Prop :=
  ∃ (h : Handle) (mishaps : Mishaps) (deeds : List Deed), h.connection = connection ∧
    pending = ((h, .begin, mishaps), .done (.ok ())) :: deeds ∧ AreEdits h.connection deeds

theorem IsOpen.edit {h : Handle} {pending : List Deed} (ho : IsOpen h.connection pending)
    (e : Edit) (mishaps : Mishaps) (reply : Reply) :
    IsOpen h.connection (pending ++ [((h, .edit e, mishaps), reply)]) := by
  obtain ⟨g, fate, deeds, hg, rfl, hdeeds⟩ := ho
  refine ⟨g, fate, deeds ++ [((h, .edit e, mishaps), reply)], hg, rfl, ?_⟩
  intro d hd
  rcases List.mem_append.1 hd with hd | hd
  · exact hdeeds d hd
  · rw [List.mem_singleton.1 hd]
    exact ⟨h, e, mishaps, rfl, hg.symm⟩

theorem IsOpen.commit {h : Handle} {pending : List Deed} (ho : IsOpen h.connection pending)
    (mishaps : Mishaps) :
    IsWhole (pending ++ [((h, .finish .commit, mishaps), .done (.ok ()))]) := by
  obtain ⟨g, fate, deeds, hg, rfl, hdeeds⟩ := ho
  exact .transaction g h fate mishaps deeds hg.symm hdeeds

namespace Chronicle

open Relation (ReflTransGen)

/-- Carrying out what is settled leads to what is committed, and carrying out what is pending from
there leads to the session as it is. -/
structure Serial (start : Database) (c : Chronicle) : Prop where
  whole : ∀ deeds ∈ c.settled, IsWhole deeds
  opened : ∀ w, c.session.store.writer = some w → IsOpen w.connection c.pending
  settled : Session.Replays ⟨⟨start, none⟩, []⟩ c.settled.flatten
    ⟨⟨c.session.store.committed, none⟩, []⟩
  pending : Session.Replays ⟨⟨c.session.store.committed, none⟩, []⟩ c.pending c.session

variable {start : Database} {kind : Handle → Prop} {c c' : Chronicle}

theorem serial_resting (start : Database) : (resting start []).Serial start :=
  ⟨by simp [resting], by simp [resting], .nil _, .nil _⟩

theorem Serial.of_leads (hc : c.Serial start) (hl : Leads kind c c') : c'.Serial start := by
  have hsettle : ∀ {db settled deeds}, (∀ deeds ∈ settled, IsWhole deeds) → IsWhole deeds →
      Session.Replays ⟨⟨start, none⟩, []⟩ (settled.flatten ++ deeds) ⟨⟨db, none⟩, []⟩ →
      (resting db (settled ++ [deeds])).Serial start := by
    intro db settled deeds hwhole hdeeds hreplays
    refine ⟨?_, by simp [resting], by simpa [resting] using hreplays, .nil _⟩
    intro block hblock
    rcases List.mem_append.1 hblock with hblock | hblock
    · exact hwhole block hblock
    · rw [List.mem_singleton.1 hblock]
      exact hdeeds
  cases hl with
  | edit _ answer store =>
    have hlast := Session.replays_edit store
    rw [answer] at hlast
    exact hsettle hc.whole (.edit _ _ _ _) (hc.settled.append hlast)
  | @begin db settled h mishaps _ ready =>
    refine ⟨hc.whole, ?_, hc.settled, Session.replays_single [] ?_⟩
    · rintro w ⟨⟩
      exact ⟨h, mishaps, [], rfl, rfl, by simp [AreEdits]⟩
    · simp [Session.perform, Session.begin, ready, Store.start, writing, bind, Except.bind, pure,
        Except.pure]
  | editWithin _ store =>
    refine ⟨hc.whole, ?_, hc.settled, hc.pending.append (Session.replays_edit store)⟩
    rintro w ⟨⟩
    exact (hc.opened _ rfl).edit _ _ _
  | @commit db draft settled pending h mishaps _ ready =>
    have hlast : Session.Replays ⟨⟨db, some ⟨h.connection, draft⟩⟩, [h.connection]⟩
        [((h, .finish .commit, mishaps), .done (.ok ()))] ⟨⟨draft, none⟩, []⟩ := by
      apply Session.replays_single []
      simp [Session.perform, Session.finish, Ending.close, ready, Store.commit]
    exact hsettle hc.whole ((hc.opened _ rfl).commit mishaps)
      (hc.settled.append (hc.pending.append hlast))
  | release => exact ⟨hc.whole, by simp [resting], hc.settled, .nil _⟩

theorem Serial.of_reach (hc : c.Serial start) (hl : ReflTransGen (Leads kind) c c') :
    c'.Serial start := by
  induction hl with
  | refl => exact hc
  | tail _ hlast ih => exact ih.of_leads hlast

end Chronicle

/-! ### Other handles -/

namespace Session

variable {db : Database} {w : Writer} {held : List Nat} {h : Handle}

def barred (mishaps : Mishaps) : TreeError := .backend .begin (mishaps.head?.join.getD .locked)

theorem edit_barred (hh : h.connection ∉ held) (e : Edit) (mishaps : Mishaps) :
    Session.edit ⟨⟨db, some w⟩, held⟩ h e mishaps =
      ⟨.error (barred mishaps), ⟨db, some w⟩, [], mishaps.tail⟩ := by
  have hheld : Session.isHeld ⟨⟨db, some w⟩, held⟩ h = false := by simpa [isHeld] using hh
  rw [edit, hheld, barred]
  cases hm : mishaps.head?.join with
  | some refusal => exact Handle.edit_of_mishap hm
  | none => exact Handle.edit_of_writer hm rfl

theorem moveAll_barred (hh : h.connection ∉ held) (placement : Placement) (ids : List Int)
    (mishaps : Mishaps) :
    ∃ report, Session.moveAll ⟨⟨db, some w⟩, held⟩ h placement ids mishaps =
        (report, ⟨⟨db, some w⟩, held⟩, []) ∧
      report.map (·.1) = ids ∧ ∀ x ∈ report, ∃ fate, x.2 = .error (barred fate) := by
  induction ids generalizing mishaps with
  | nil => exact ⟨[], rfl, rfl, by simp⟩
  | cons id rest ih =>
    obtain ⟨report, hmoves, hids, hbarred⟩ := ih mishaps.tail
    refine ⟨(id, .error (barred mishaps)) :: report, ?_, by simp [hids], ?_⟩
    · rw [moveAll]
      simp only [edit_barred hh, hmoves, List.append_nil]
    · rw [List.forall_mem_cons]
      exact ⟨⟨mishaps, rfl⟩, hbarred⟩

theorem begin_barred (h : Handle) (mishaps : Mishaps) :
    Session.begin ⟨⟨db, some w⟩, held⟩ h mishaps = .error (barred mishaps) := by
  cases hm : mishaps.head?.join <;> simp [begin, barred, hm, Store.start, bind, Except.bind]

theorem perform_edit_barred (hh : h.connection ∉ held) (e : Edit) (mishaps : Mishaps) :
    Session.perform ⟨⟨db, some w⟩, held⟩ h (.edit e) mishaps =
      (.answer (.error (barred mishaps)), ⟨⟨db, some w⟩, held⟩, []) := by
  simp only [perform, edit_barred hh]

theorem perform_begin_barred (mishaps : Mishaps) :
    Session.perform ⟨⟨db, some w⟩, held⟩ h .begin mishaps =
      (.done (.error (barred mishaps)), ⟨⟨db, some w⟩, held⟩, []) := by
  simp only [perform, begin_barred]

theorem perform_moveAll_barred (hh : h.connection ∉ held) (placement : Placement)
    (ids : List Int) (mishaps : Mishaps) :
    ∃ report, Session.perform ⟨⟨db, some w⟩, held⟩ h (.moveAll ids placement) mishaps =
        (.report report, ⟨⟨db, some w⟩, held⟩, []) ∧
      report.map (·.1) = ids ∧ ∀ x ∈ report, ∃ fate, x.2 = .error (barred fate) := by
  obtain ⟨report, hmoves, hreport⟩ := @moveAll_barred db w held h hh placement ids mishaps
  exact ⟨report, by simp only [perform, hmoves], hreport⟩

end Session

namespace Handle

variable {α : Type}

theorem read_congr {h : Handle} {s t : Store} (hview : s.view h.connection = t.view h.connection)
    (question : List Record → Except TreeError α) : h.read s question = h.read t question := by
  rw [read, read, hview]
  rfl

end Handle

namespace Chronicle.Sturdy

variable {c : Chronicle} {g h : Handle}

theorem ne_of_not_held {db : Database} {w : Writer} {settled : List (List Deed)}
    {pending : List Deed} (hh : (Chronicle.writing db w settled pending).session.isHeld h = false) :
    h.connection ≠ w.connection := by
  simpa [Chronicle.writing, Session.isHeld] using hh

theorem exists_writing (hc : c.Sturdy) (hg : c.session.isHeld g = true)
    (hh : c.session.isHeld h = false) :
    ∃ db w settled pending, c = Chronicle.writing db w settled pending ∧
      h.connection ∉ [w.connection] := by
  cases hc with
  | resting db settled => cases hg
  | writing db w settled pending =>
    exact ⟨db, w, settled, pending, rfl, fun hmem => ne_of_not_held hh (List.mem_singleton.1 hmem)⟩

theorem read_apart {α : Type} (hc : c.Sturdy) (hh : c.session.isHeld h = false) (exclusive : Bool)
    (question : List Record → Except TreeError α) :
    h.read c.session.store question exclusive =
      if exclusive && c.session.store.writer.isSome then .error (.backend .read .locked)
      else h.read ⟨c.session.store.committed, none⟩ question := by
  rw [Handle.read_eq]
  cases hc with
  | resting db settled => simp [Chronicle.resting, Store.mayWrite]
  | writing db w settled pending =>
    have hne : ¬w.connection = h.connection := (ne_of_not_held hh).symm
    have hview : Store.view ⟨db, some w⟩ h.connection = Store.view ⟨db, none⟩ h.connection := by
      simp [Store.view, hne]
    simp [Chronicle.writing, Store.mayWrite, hne, Handle.read_congr hview]

theorem exists_draft (hc : c.Sturdy) (hh : c.session.isHeld h = true) :
    ∃ draft, c.session.store.writer = some ⟨h.connection, draft⟩ ∧
      ∀ (exclusive : Bool) (α : Type) (question : List Record → Except TreeError α),
        h.read c.session.store question exclusive = h.read ⟨draft, none⟩ question := by
  cases hc with
  | resting db settled => cases hh
  | writing db w settled pending =>
    obtain ⟨connection, draft⟩ := w
    obtain rfl : h.connection = connection := (isHeld_writing _ _ _ _ _).1 hh
    refine ⟨draft, rfl, fun exclusive α question => ?_⟩
    have hview : Store.view ⟨db, some ⟨h.connection, draft⟩⟩ h.connection =
        Store.view ⟨draft, none⟩ h.connection := by
      simp [Store.view]
    rw [Handle.read_eq]
    simp [Chronicle.writing, Store.mayWrite, Handle.read_congr hview]

end Chronicle.Sturdy

/-- Handles with covered types work on one store in any order, in transactions of their own or in
ones that their users hold and do not lose. While somebody holds a transaction, edits, batches and
transactions of others are refused as they begin and change nothing; others see what is committed,
or nothing while the file is kept from them, and the holder sees the draft. What is committed comes
of carrying out in the order of their commits the edits that succeeded on their own and the
transactions that were committed, and the draft comes of carrying out on it what is pending; the
replies are the same. -/
theorem histories_are_serial {start : Database} {steps : List (Handle × Command × Mishaps)}
    (hcovered : ∀ x ∈ steps, x.1.schema.IsCovered)
    (hu : Session.Unbroken ⟨⟨start, none⟩, []⟩ steps) :
    let s := (Session.run ⟨⟨start, none⟩, []⟩ steps).2
    let c := Chronicle.run (.resting start []) steps
    (∀ deeds ∈ c.settled, IsWhole deeds) ∧
    Session.Replays ⟨⟨start, none⟩, []⟩ c.settled.flatten ⟨⟨s.store.committed, none⟩, []⟩ ∧
    Session.Replays ⟨⟨s.store.committed, none⟩, []⟩ c.pending s ∧
    (∀ h : Handle, s.isHeld h = false →
      ∀ (exclusive : Bool) (α : Type) (question : List Record → Except TreeError α),
        h.read s.store question exclusive =
          if exclusive && s.store.writer.isSome then .error (.backend .read .locked)
          else h.read ⟨s.store.committed, none⟩ question) ∧
    (∀ h : Handle, s.isHeld h = true → IsOpen h.connection c.pending ∧
      ∃ draft, s.store.writer = some ⟨h.connection, draft⟩ ∧
        ∀ (exclusive : Bool) (α : Type) (question : List Record → Except TreeError α),
          h.read s.store question exclusive = h.read ⟨draft, none⟩ question) ∧
    ∀ g h : Handle, s.isHeld g = true → s.isHeld h = false →
      (∀ e mishaps, s.perform h (.edit e) mishaps =
        (.answer (.error (Session.barred mishaps)), s, [])) ∧
      (∀ mishaps, s.perform h .begin mishaps =
        (.done (.error (Session.barred mishaps)), s, [])) ∧
      ∀ ids placement mishaps, ∃ report,
        s.perform h (.moveAll ids placement) mishaps = (.report report, s, []) ∧
        report.map (·.1) = ids ∧ ∀ x ∈ report, ∃ fate, x.2 = .error (Session.barred fate) := by
  intro s c
  have hsession : c.session = s := Chronicle.session_run _ steps
  have hreach : Relation.ReflTransGen (Chronicle.Leads fun h => h.schema.IsCovered)
      (.resting start []) c := Chronicle.leads_run (.resting start []) hcovered hu
  have hserial : c.Serial start := (Chronicle.serial_resting start).of_reach hreach
  have hsturdy : c.Sturdy := (Chronicle.Sturdy.resting start []).of_leads hreach
  clear_value s c
  subst hsession
  refine ⟨hserial.whole, hserial.settled, hserial.pending, ?others, ?holder, ?barred⟩
  case others => exact fun h hh exclusive α question => hsturdy.read_apart hh exclusive question
  case holder =>
    intro h hh
    obtain ⟨draft, hwriter, hread⟩ := hsturdy.exists_draft hh
    exact ⟨hserial.opened _ hwriter, draft, hwriter, hread⟩
  case barred =>
    intro g h hg hh
    obtain ⟨db, w, settled, pending, rfl, hapart⟩ := hsturdy.exists_writing hg hh
    exact ⟨Session.perform_edit_barred hapart, Session.perform_begin_barred,
      fun ids placement mishaps => Session.perform_moveAll_barred hapart placement ids mishaps⟩

/-- The second tree is begun in a transaction, while the first handle is kept out. Then the first
handle holds a transaction in which it clears its tree. -/
def serialSteps : List (Handle × Command × Mishaps) :=
  [(orchardHandle 0, .edit (.add [] .root), []), (orchardHandle 1, .begin, []),
    (orchardHandle 1, .edit (.add [] .root), []),
    (orchardHandle 0, .edit (.add [] (.firstChildOf 1)), []),
    (orchardHandle 1, .finish .commit, []), (orchardHandle 0, .begin, []),
    (orchardHandle 0, .edit (.remove 1), [])]

theorem histories_are_serial_orchard :
    let start := orchardStore.committed
    let s := (Session.run ⟨⟨start, none⟩, []⟩ serialSteps).2
    let c := Chronicle.run (.resting start []) serialSteps
    Session.Unbroken ⟨⟨start, none⟩, []⟩ serialSteps ∧
      c.settled.map List.length = [1, 3] ∧ c.pending.length = 2 ∧
      Session.Replays ⟨⟨start, none⟩, []⟩ c.settled.flatten ⟨⟨s.store.committed, none⟩, []⟩ ∧
      (orchardHandle 1).nodes s.store = (orchardHandle 1).nodes ⟨s.store.committed, none⟩ ∧
      (s.perform (orchardHandle 1) (.edit (.remove 2)) []).1 =
        .answer (.error (.backend .begin .locked)) := by
  intro start s c
  have hcovered : ∀ x ∈ serialSteps, x.1.schema.IsCovered := by decide
  have hu : Session.Unbroken ⟨⟨start, none⟩, []⟩ serialSteps := by decide +kernel
  have hfirst : s.isHeld (orchardHandle 0) = true := by decide +kernel
  have hsecond : s.isHeld (orchardHandle 1) = false := by decide +kernel
  obtain ⟨-, hsettled, -, hothers, -, hbarred⟩ := histories_are_serial hcovered hu
  refine ⟨hu, by decide +kernel, by decide +kernel, hsettled, ?_, ?_⟩
  · exact hothers (orchardHandle 1) hsecond false _ Reading.nodes
  · rw [(hbarred (orchardHandle 0) (orchardHandle 1) hfirst hsecond).1]
    rfl

/-- While the file is kept from the other handle, it does not see what is committed. -/
theorem readers_are_locked_out :
    let start := orchardStore.committed
    let s := (Session.run ⟨⟨start, none⟩, []⟩ serialSteps).2
    Session.Unbroken ⟨⟨start, none⟩, []⟩ serialSteps ∧
      s.isHeld (orchardHandle 0) = true ∧ s.isHeld (orchardHandle 1) = false ∧
      (orchardHandle 1).size ⟨s.store.committed, none⟩ true = .ok 1 ∧
      (orchardHandle 1).size s.store true = .error (.backend .read .locked) := by
  decide +kernel

end NestedSet
