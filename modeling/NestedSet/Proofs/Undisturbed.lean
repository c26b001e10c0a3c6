import Mathlib
import NestedSet.Proofs.Consistency

/-!
# Runs without a refusal

As long as no statement is refused, a procedure relates the database that it
starts on to its answer and the database that it leaves. An error among these
answers is the procedure's own.
-/

set_option autoImplicit false

namespace NestedSet

namespace Procedure

variable {α β : Type} {s : Schema} {db db' : Database}

/-- No statement is refused, and the procedure ends with an answer on a database. -/
def Ends (s : Schema) : Procedure α → Database → Except TreeError α → Database → Prop
  | done a, db, answer, db' => answer = a ∧ db' = db
  | issue q next, db, answer, db' =>
    ∃ a db₁, q.statement s db = .ok (a, db₁) ∧ (next a).Ends s db₁ answer db'
  | report _ next, db, answer, db' => next.Ends s db answer db'

@[simp] theorem ends_pure {a : α} {answer : Except TreeError α} :
    (pure a : Procedure α).Ends s db answer db' ↔ answer = .ok a ∧ db' = db := .rfl

@[simp] theorem ends_throw {e : TreeError} {answer : Except TreeError α} :
    (throw e : Procedure α).Ends s db answer db' ↔ answer = .error e ∧ db' = db := .rfl

@[simp] theorem ends_lift {a answer : Except TreeError α} :
    (liftM a : Procedure α).Ends s db answer db' ↔ answer = a ∧ db' = db := .rfl

@[simp] theorem ends_tell {event : Event} {answer : Except TreeError Unit} :
    (tell event).Ends s db answer db' ↔ answer = .ok () ∧ db' = db := .rfl

@[simp] theorem ends_request {q : Request} {answer : Except TreeError q.Reply} :
    (request q).Ends s db answer db' ↔
      ∃ a, q.statement s db = .ok (a, db') ∧ answer = .ok a := by
  constructor
  · rintro ⟨a, db₁, hq, rfl, rfl⟩
    exact ⟨a, hq, rfl⟩
  · rintro ⟨a, hq, rfl⟩
    exact ⟨a, db', hq, rfl, rfl⟩

theorem ends_bind {p : Procedure α} {f : α → Procedure β} {answer : Except TreeError β} :
    (p >>= f).Ends s db answer db' ↔
      (∃ a db₁, p.Ends s db (.ok a) db₁ ∧ (f a).Ends s db₁ answer db') ∨
        ∃ e, p.Ends s db (.error e) db' ∧ answer = .error e := by
  change (p.bind f).Ends s db answer db' ↔ _
  induction p generalizing db with
  | done a =>
    cases a with
    | ok a =>
      constructor
      · intro h
        exact .inl ⟨a, db, ⟨rfl, rfl⟩, h⟩
      · rintro (⟨a', db₁, ⟨⟨⟩, rfl⟩, h⟩ | ⟨e, ⟨⟨⟩, -⟩, -⟩)
        exact h
    | error e =>
      constructor
      · rintro ⟨rfl, rfl⟩
        exact .inr ⟨e, ⟨rfl, rfl⟩, rfl⟩
      · rintro (⟨a', db₁, ⟨⟨⟩, -⟩, -⟩ | ⟨e', ⟨⟨⟩, rfl⟩, rfl⟩)
        exact ⟨rfl, rfl⟩
  | issue q next ih =>
    constructor
    · rintro ⟨a, db₁, hq, h⟩
      obtain ⟨b, db₂, hp, hf⟩ | ⟨e, hp, he⟩ := (ih a).1 h
      · exact .inl ⟨b, db₂, ⟨a, db₁, hq, hp⟩, hf⟩
      · exact .inr ⟨e, ⟨a, db₁, hq, hp⟩, he⟩
    · rintro (⟨b, db₂, ⟨a, db₁, hq, hp⟩, hf⟩ | ⟨e, ⟨a, db₁, hq, hp⟩, he⟩)
      · exact ⟨a, db₁, hq, (ih a).2 (.inl ⟨b, db₂, hp, hf⟩)⟩
      · exact ⟨a, db₁, hq, (ih a).2 (.inr ⟨e, hp, he⟩)⟩
  | report event next ih => exact ih

theorem ends_map {f : α → β} {p : Procedure α} {answer : Except TreeError β} :
    (f <$> p).Ends s db answer db' ↔ ∃ a, p.Ends s db a db' ∧ answer = a.map f := by
  change (p >>= fun a => pure (f a)).Ends s db answer db' ↔ _
  rw [ends_bind]
  constructor
  · rintro (⟨a, db₁, hp, rfl, rfl⟩ | ⟨e, hp, rfl⟩)
    · exact ⟨.ok a, hp, rfl⟩
    · exact ⟨.error e, hp, rfl⟩
  · rintro ⟨a, hp, rfl⟩
    cases a with
    | ok a => exact .inl ⟨a, db', hp, rfl, rfl⟩
    | error e => exact .inr ⟨e, hp, rfl⟩

theorem ne_backend_of_ends {p : Procedure α} (hp : p.Honest) {answer : Except TreeError α}
    (h : p.Ends s db answer db') (step : Step) (refusal : Refusal) :
    answer ≠ .error (.backend step refusal) := by
  induction p generalizing db with
  | done a =>
    obtain ⟨rfl, -⟩ := h
    exact hp step refusal
  | issue q next ih =>
    obtain ⟨a, db₁, -, h⟩ := h
    exact ih a (hp a) h
  | report event next ih => exact ih hp h

theorem ends_of_calls {p : Procedure α} {d : Desk} (h : ∀ c ∈ p.calls s d, c.2 = none) :
    p.Ends s d.database (p.result s d).1 (p.result s d).2.database := by
  induction p generalizing d with
  | done a => exact ⟨rfl, rfl⟩
  | issue q next ih =>
    rcases ho : d.outcome s q with refusal | ⟨a, db₁⟩
    · simp [calls, Desk.serve, ho] at h
    · simp only [calls, result, Desk.serve, ho, List.forall_mem_cons] at h ⊢
      exact ⟨a, db₁, Desk.statement_of_outcome ho, ih a h.2⟩
  | report event next ih => exact ih (d := d.report event) h

theorem result_of_ends {p : Procedure α} {answer : Except TreeError α}
    (h : p.Ends s db answer db') (events : List Event) :
    (∀ c ∈ p.calls s ⟨db, [], events, false⟩, c.2 = none) ∧
      ∃ events', p.result s ⟨db, [], events, false⟩ = (answer, ⟨db', [], events', false⟩) := by
  induction p generalizing db events with
  | done a =>
    obtain ⟨rfl, rfl⟩ := h
    exact ⟨by simp [calls], events, rfl⟩
  | issue q next ih =>
    obtain ⟨a, db₁, hq, h⟩ := h
    obtain ⟨hcalls, events', hresult⟩ := ih a h events
    have hserve : Desk.serve ⟨db, [], events, false⟩ s q = (.ok a, ⟨db₁, [], events, false⟩) := by
      cases hquestion : q.isQuestion <;>
        simp [Desk.serve, Desk.outcome, Desk.mishap?, Desk.allow, Desk.advance, hquestion, hq]
    simp only [calls, result, hserve, List.forall_mem_cons]
    exact ⟨⟨trivial, hcalls⟩, events', hresult⟩
  | report event next ih => exact ih h (events ++ [event])

end Procedure

structure Desk.Calm (d : Desk) : Prop where
  mishaps : d.mishaps = []
  unlocked : d.locked = false
  faults : d.database.faults = []

theorem Desk.Calm.exists_result {α : Type} {s : Schema} {db : Database} {d : Desk} (hd : d.Calm)
    {p : Procedure α} {answer : Except TreeError α} (h : p.Ends s d.database answer db)
    (hfaults : db.faults = []) :
    ∃ d', p.result s d = (answer, d') ∧ d'.database = db ∧ d'.Calm := by
  obtain ⟨db₀, mishaps, events, locked⟩ := d
  obtain rfl : mishaps = [] := hd.mishaps
  obtain rfl : locked = false := hd.unlocked
  obtain ⟨-, events', hresult⟩ := Procedure.result_of_ends h events
  exact ⟨_, hresult, rfl, rfl, rfl, hfaults⟩

/-! ### Edits -/

theorem Edit.stands_of_ends {s : Schema} (hs : s.Sound) {db db' : Database} {t : Table}
    {f : Forest Item} {supply : Supply} (hst : Stands s db t f supply) {e : Edit}
    {answer : Except TreeError Answer} (he : (e.procedure s).Ends s db answer db') :
    ∃ new t' supply', answer = (e.onForest s new f).map (·.1) ∧
      Stands s db' t' (e.grown s new f) supply' := by
  obtain ⟨-, events, hresult⟩ := Procedure.result_of_ends he []
  obtain ⟨t', -, ⟨step, refusal, hrefusal⟩ | ⟨new, -, hanswer, hst'⟩⟩ :=
    e.result_of_stands hs (d := { database := db }) hst hresult
  · exact absurd hrefusal (Procedure.ne_backend_of_ends (e.honest_procedure s) he step refusal)
  · exact ⟨new, t', _, hanswer, hst'⟩

namespace Handle

variable {h : Handle} {db db' : Database} {e : Edit} {answer : Except TreeError Answer}

theorem exists_ends (hc : ∀ c ∈ h.calls ⟨db, none⟩ e [], c.2 = none) :
    ∃ answer db', (e.procedure h.schema).Ends h.schema db answer db' := by
  refine ⟨_, _, Procedure.ends_of_calls (d := { database := db }) ?_⟩
  intro c hmem
  exact hc (.issue c.1, c.2)
    (List.mem_cons_of_mem _ (List.mem_append_left _ (List.mem_map_of_mem hmem)))

theorem edit_of_ends (he : (e.procedure h.schema).Ends h.schema db answer db') :
    (h.edit ⟨db, none⟩ e).answer = answer ∧
      (h.edit ⟨db, none⟩ e).store = ⟨if answer.toBool then db' else db, none⟩ ∧
      ∀ c ∈ h.calls ⟨db, none⟩ e [], c.2 = none := by
  obtain ⟨hcalls, events, hresult⟩ := Procedure.result_of_ends he []
  have hissued : ∀ c ∈ h.issued db e [], c.2 = none := by
    intro c hc
    obtain ⟨q, verdict, hq, rfl⟩ := mem_issued.1 hc
    exact hcalls _ hq
  have hready : ([] : Mishaps).head?.join = none := rfl
  cases answer with
  | ok a =>
    rw [edit_of_ok hready hresult]
    refine ⟨rfl, rfl, ?_⟩
    intro c hc
    simp only [calls, closing, List.head?_nil, Option.join_none, List.tail_nil, hresult,
      List.mem_cons, List.mem_append, List.not_mem_nil, or_false] at hc
    rcases hc with rfl | hc | rfl
    · rfl
    · exact hissued c hc
    · rfl
  | error error =>
    rw [edit_of_error hready hresult]
    refine ⟨rfl, rfl, ?_⟩
    intro c hc
    simp only [calls, closing, List.head?_nil, Option.join_none, List.tail_nil, hresult,
      List.append_nil, List.mem_cons] at hc
    rcases hc with rfl | hc
    · rfl
    · exact hissued c hc

theorem mishaps_of_ends (he : (e.procedure h.schema).Ends h.schema db answer db') :
    (h.edit ⟨db, none⟩ e).mishaps = [] := by
  obtain ⟨-, events, hresult⟩ := Procedure.result_of_ends he []
  have hready : ([] : Mishaps).head?.join = none := rfl
  cases answer with
  | ok a =>
    rw [edit_of_ok hready hresult]
    rfl
  | error error => rw [edit_of_error hready hresult]

theorem editWithin_of_ends (committed : Database)
    (he : (e.procedure h.schema).Ends h.schema db answer db') :
    (h.editWithin ⟨committed, some ⟨h.connection, db⟩⟩ e).answer = answer ∧
      (h.editWithin ⟨committed, some ⟨h.connection, db⟩⟩ e).store =
        ⟨committed, some ⟨h.connection, db'⟩⟩ := by
  obtain ⟨-, events, hresult⟩ := Procedure.result_of_ends he []
  have hhonest := Procedure.ne_backend_of_ends (e.honest_procedure h.schema) he
  unfold editWithin
  rw [Store.run_of_writer, hresult]
  cases answer with
  | ok a => exact ⟨rfl, rfl⟩
  | error error =>
    have hcalm : error.endsTransaction = false := by
      cases error with
      | backend step refusal => exact absurd rfl (hhonest step refusal)
      | _ => rfl
    simp [hcalm]

end Handle

end NestedSet
