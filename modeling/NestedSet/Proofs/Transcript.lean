import Mathlib
import NestedSet.Proofs.Phases

/-!
# What a procedure issues

The statements of a run in their order, each with the refusal that it met. A
run issues nothing after a refusal, so only the last statement can have been
refused, and the answer blames its step. Which statements fail from outside is
decided by their places in this order.
-/

set_option autoImplicit false

namespace NestedSet

theorem Desk.serve_ok {s : Schema} {q : Request} {d d' : Desk} {a : q.Reply}
    (h : d.serve s q = (.ok a, d')) : d.mishap? = none ∧ d'.mishaps = d.mishaps.tail := by
  unfold serve outcome at h
  cases hm : d.mishap? with
  | some refusal => simp [hm] at h
  | none =>
    refine ⟨rfl, ?_⟩
    split at h
    · rw [← (Prod.mk.inj h).2]
      rfl
    · cases (Prod.mk.inj h).1

theorem Desk.database_serve_of_locked {s : Schema} {q : Request} {d : Desk} (h : d.locked = true) :
    (d.serve s q).2.database = d.database ∧ (d.serve s q).2.locked = true := by
  cases ho : d.outcome s q with
  | error refusal => simp [serve, ho, advance, h]
  | ok a =>
    obtain ⟨a, db⟩ := a
    have hdb : db = d.database := by
      unfold outcome at ho
      cases hm : d.mishap? with
      | some refusal => simp [hm] at ho
      | none =>
        rw [hm] at ho
        by_cases hq : q.isQuestion = true
        · simp only [hq, if_true] at ho
          exact Request.statement_of_isQuestion hq ho
        · have hq' : q.isQuestion = false := by simpa using hq
          simp only [hq', Bool.false_eq_true, if_false] at ho
          cases hs : q.statement s d.database <;> simp [allow, h, hs] at ho
    simp [serve, ho, advance, h, hdb]

namespace Procedure

variable {α β : Type}

def calls (s : Schema) : Procedure α → Desk → List (Request × Option Refusal)
  | done _, _ => []
  | issue q next, d =>
    match d.serve s q with
    | (.ok a, d') => (q, none) :: (next a).calls s d'
    | (.error refusal, _) => [(q, some refusal)]
  | report event next, d => next.calls s (d.report event)

theorem answer_of_mem_calls {s : Schema} {p : Procedure α} {d : Desk} {q : Request}
    {refusal : Refusal} (h : (q, some refusal) ∈ p.calls s d) :
    (p.result s d).1 = .error (.backend q.step refusal) := by
  induction p generalizing d with
  | done answer => cases h
  | issue q' next ih =>
    simp only [result]
    rcases hd : d.serve s q' with ⟨answer, d'⟩
    cases answer with
    | error refusal' =>
      simp only [calls, hd, List.mem_singleton, Prod.mk.injEq, Option.some.injEq] at h
      rw [h.1, h.2]
    | ok a =>
      simp only [calls, hd, List.mem_cons, Prod.mk.injEq, reduceCtorEq, and_false, false_or] at h
      exact ih a h
  | report event next ih => exact ih h

/-- No error of a procedure's own passes for a refusal of the database. -/
def Honest : Procedure α → Prop
  | done answer => ∀ step refusal, answer ≠ .error (.backend step refusal)
  | issue _ next => ∀ a, (next a).Honest
  | report _ next => next.Honest

theorem exists_mem_calls {s : Schema} {p : Procedure α} {d : Desk} {step : Step}
    {refusal : Refusal} (hp : p.Honest) (h : (p.result s d).1 = .error (.backend step refusal)) :
    ∃ q, (q, some refusal) ∈ p.calls s d ∧ q.step = step := by
  induction p generalizing d with
  | done answer => exact absurd h (hp step refusal)
  | issue q next ih =>
    simp only [calls]
    rcases hd : d.serve s q with ⟨answer, d'⟩
    simp only [result, hd] at h
    cases answer with
    | error refusal' =>
      simp only [Except.error.injEq, TreeError.backend.injEq] at h
      refine ⟨q, ?_, h.1⟩
      rw [h.2]
      exact List.mem_singleton_self _
    | ok a =>
      obtain ⟨q', hq', hstep⟩ := ih a (hp a) h
      exact ⟨q', List.mem_cons_of_mem _ hq', hstep⟩
  | report event next ih => exact ih hp h

theorem honest_pure (a : α) : (pure a : Procedure α).Honest := by
  intro step refusal h
  cases h

theorem honest_throw {e : TreeError} (h : ∀ step refusal, e ≠ .backend step refusal) :
    (throw e : Procedure α).Honest :=
  fun step refusal he => h step refusal (Except.error.inj he)

theorem honest_request (q : Request) : (request q).Honest := fun a => honest_pure a

theorem honest_tell (event : Event) : (tell event).Honest := honest_pure ()

theorem honest_bind {p : Procedure α} {f : α → Procedure β} (hp : p.Honest)
    (hf : ∀ a, (f a).Honest) : (p >>= f).Honest := by
  change (p.bind f).Honest
  induction p with
  | done answer =>
    cases answer with
    | ok a => exact hf a
    | error e =>
      intro step refusal h
      exact hp step refusal (congrArg Except.error (Except.error.inj h))
  | issue q next ih => exact fun a => ih a (hp a)
  | report event next ih => exact ih hp

theorem honest_map {f : α → β} {p : Procedure α} (hp : p.Honest) : (f <$> p).Honest :=
  honest_bind hp fun a => honest_pure (f a)

theorem mishaps_result (s : Schema) (p : Procedure α) (d : Desk) :
    (p.result s d).2.mishaps = d.mishaps.drop (p.calls s d).length := by
  induction p generalizing d with
  | done answer => rfl
  | issue q next ih =>
    simp only [result, calls]
    cases hd : d.serve s q with
    | mk answer d' =>
      cases answer with
      | ok a =>
        simp only [ih, (Desk.serve_ok hd).2, List.length_cons, List.drop_tail]
      | error refusal =>
        have hm : d'.mishaps = d.mishaps.tail := by
          unfold Desk.serve at hd
          split at hd
          · cases hd
          · rw [← (Prod.mk.inj hd).2]
            rfl
        simp [hm]
  | report event next ih => exact ih _

theorem serve_with_mishaps {s : Schema} {q : Request} {d : Desk} {mishaps : Mishaps}
    (h : mishaps[0]?.join = d.mishaps[0]?.join) :
    { d with mishaps := mishaps }.serve s q =
      ((d.serve s q).1, { (d.serve s q).2 with mishaps := mishaps.tail }) := by
  have ho : { d with mishaps := mishaps }.outcome s q = d.outcome s q := by
    rw [← List.head?_eq_getElem?, ← List.head?_eq_getElem?] at h
    simp only [Desk.outcome, Desk.mishap?, h, Desk.allow]
  unfold Desk.serve
  rw [ho]
  cases d.outcome s q <;> rfl

theorem calls_of_agree {s : Schema} {p : Procedure α} {d : Desk} {mishaps : Mishaps}
    (h : ∀ j < (p.calls s d).length, mishaps[j]?.join = d.mishaps[j]?.join) :
    p.calls s { d with mishaps := mishaps } = p.calls s d ∧
      (p.result s { d with mishaps := mishaps }).1 = (p.result s d).1 := by
  induction p generalizing d mishaps with
  | done answer => exact ⟨rfl, rfl⟩
  | issue q next ih =>
    rcases hd : d.serve s q with ⟨answer, d'⟩
    have hlen : 0 < ((issue q next).calls s d).length := by
      cases answer <;> simp [calls, hd]
    have hserve := @serve_with_mishaps s q d mishaps (h 0 hlen)
    rw [hd] at hserve
    simp only [calls, result, hserve, hd]
    cases answer with
    | error refusal => exact ⟨rfl, rfl⟩
    | ok a =>
      have hrest : ∀ j < ((next a).calls s d').length,
          mishaps.tail[j]?.join = d'.mishaps[j]?.join := by
        intro j hj
        rw [(Desk.serve_ok hd).2, List.getElem?_tail, List.getElem?_tail]
        apply h (j + 1)
        simp only [calls, hd, List.length_cons]
        omega
      have hnext := ih a hrest
      exact ⟨congrArg ((q, none) :: ·) hnext.1, hnext.2⟩
  | report event next ih => exact @ih (d.report event) mishaps h

theorem mem_calls_of_mishap {s : Schema} {p : Procedure α} {d : Desk} {k : Nat} {q : Request}
    {verdict : Option Refusal} (hk : (p.calls s d)[k]? = some (q, verdict)) {mishaps : Mishaps}
    (ha : ∀ j < k, mishaps[j]?.join = d.mishaps[j]?.join) {refusal : Refusal}
    (hm : mishaps[k]? = some (some refusal)) :
    (q, some refusal) ∈ p.calls s { d with mishaps := mishaps } := by
  induction p generalizing d mishaps k with
  | done answer => cases hk
  | issue q' next ih =>
    cases k with
    | zero =>
      have hq : q' = q := by
        rcases hd : d.serve s q' with ⟨answer, d'⟩
        cases answer <;> simp only [calls, hd, List.getElem?_cons_zero, Option.some.injEq,
          Prod.mk.injEq] at hk <;> exact hk.1
      have hmishap : Desk.mishap? { d with mishaps := mishaps } = some refusal := by
        simp only [Desk.mishap?, List.head?_eq_getElem?, hm, Option.join_some]
      simp [calls, Desk.serve, Desk.outcome, hmishap, hq]
    | succ k =>
      have hserve := @serve_with_mishaps s q' d mishaps (ha 0 (Nat.succ_pos k))
      rcases hd : d.serve s q' with ⟨answer, d'⟩
      rw [hd] at hserve
      cases answer with
      | error refusal' => simp [calls, hd] at hk
      | ok a =>
        simp only [calls, hd, List.getElem?_cons_succ] at hk
        simp only [calls, hserve]
        refine List.mem_cons_of_mem _ (ih a hk ?_ ?_)
        · intro j hj
          rw [(Desk.serve_ok hd).2, List.getElem?_tail, List.getElem?_tail]
          exact ha (j + 1) (by omega)
        · rw [List.getElem?_tail]
          exact hm
  | report event next ih => exact @ih (d.report event) k hk mishaps ha hm

theorem database_result_of_locked {s : Schema} {p : Procedure α} {d : Desk}
    (h : d.locked = true) : (p.result s d).2.database = d.database := by
  induction p generalizing d with
  | done answer => rfl
  | issue q next ih =>
    have hq := @Desk.database_serve_of_locked s q d h
    simp only [result]
    rcases hd : d.serve s q with ⟨answer, d'⟩
    rw [hd] at hq
    cases answer with
    | error refusal => exact hq.1
    | ok a => exact (ih a hq.2).trans hq.1
  | report event next ih => exact ih h

end Procedure

/-! ### Errors that an edit has of its own -/

theorem mapM_eq_error {α β ε : Type} {f : α → Except ε β} {l : List α} {e : ε}
    (h : l.mapM f = .error e) : ∃ a ∈ l, f a = .error e := by
  induction l with
  | nil => cases h
  | cons a l ih =>
    rw [List.mapM_cons] at h
    cases hf : f a with
    | error e' =>
      rw [hf] at h
      exact ⟨a, List.mem_cons_self, hf.trans (congrArg Except.error (Except.error.inj h))⟩
    | ok b =>
      rw [hf] at h
      cases hl : l.mapM f with
      | error e' =>
        rw [hl] at h
        obtain ⟨c, hc, hfc⟩ := ih (hl.trans (congrArg Except.error (Except.error.inj h)))
        exact ⟨c, List.mem_cons_of_mem _ hc, hfc⟩
      | ok bs =>
        rw [hl] at h
        cases h

theorem Schema.resolve_ne_backend (s : Schema) (payload : Payload) (step : Step)
    (refusal : Refusal) : s.resolve payload ≠ .error (.backend step refusal) := by
  intro h
  obtain ⟨⟨name, value⟩, _, hf⟩ := mapM_eq_error h
  by_cases hn : name ∈ structuralFields
  · simp [hn] at hf
  · cases hs : s.field? name <;> simp [hn, hs] at hf

namespace Editing

open Procedure

theorem honest_element (id : Int) : (element id).Honest := by
  apply honest_bind (honest_request _)
  intro found
  cases found with
  | none => exact honest_throw (by simp)
  | some n => exact honest_pure n

theorem honest_makeRoom (pivot width : Int) : (makeRoom pivot width).Honest :=
  honest_bind (honest_request _) fun _ => honest_bind (honest_request _) fun _ => honest_tell _

theorem honest_collapse (gap : Bounds) : (collapse gap).Honest :=
  honest_bind (honest_request _) fun _ => honest_bind (honest_request _) fun _ => honest_tell _

theorem honest_shift (subtree : Bounds) (offset : Int) : (shift subtree offset).Honest :=
  honest_bind (honest_request _) fun _ => honest_tell _

theorem honest_lastDrawn (sequence : Identifier) : (lastDrawn sequence).Honest := by
  apply honest_bind (honest_request _)
  intro counter
  cases counter with
  | none => exact honest_request _
  | some value => exact honest_pure value

theorem honest_drawId (ids : IdSource Identifier) : (drawId ids).Honest := by
  cases ids with
  | autoIncrement => exact honest_pure none
  | sequence sequence =>
    apply honest_bind (honest_lastDrawn sequence)
    intro last
    exact honest_bind (honest_request _) fun _ => honest_pure _

theorem honest_site (placement : Placement) : (site placement).Honest := by
  cases placement with
  | root =>
    apply honest_bind (honest_request _)
    intro (nodes : Nat)
    by_cases h : nodes = 0
    · simp only [h, if_true]
      exact honest_pure _
    · simp only [h, if_false]
      exact honest_throw (by simp)
  | firstChildOf id => exact honest_bind (honest_element id) fun _ => honest_pure _
  | after id =>
    apply honest_bind (honest_element id)
    intro sibling
    cases sibling.parent with
    | none => exact honest_throw (by simp)
    | some parent => exact honest_pure _

theorem honest_makeLeafRoom (parent : Option Int) (pivot : Int) :
    (makeLeafRoom parent pivot).Honest := by
  cases parent with
  | none => exact honest_pure ()
  | some parent => exact honest_makeRoom pivot 2

theorem honest_add (s : Schema) (payload : Payload) (placement : Placement) :
    (add s payload placement).Honest := by
  refine honest_bind (s.resolve_ne_backend payload) ?_
  intro values
  apply honest_bind (honest_site placement)
  intro (parent, pivot)
  apply honest_bind (honest_makeLeafRoom parent pivot)
  intro _
  apply honest_bind (honest_drawId s.ids)
  intro id
  apply honest_bind (honest_request _)
  intro id
  exact honest_bind (honest_tell _) fun _ => honest_pure _

theorem honest_remove (id : Int) : (remove id).Honest := by
  apply honest_bind (honest_element id)
  intro node
  apply honest_bind (honest_request _)
  intro rows
  exact honest_bind (honest_collapse _) fun _ => honest_bind (honest_tell _) fun _ => honest_pure _

theorem honest_update (s : Schema) (id : Int) (payload : Payload) :
    (update s id payload).Honest := by
  unfold update
  by_cases he : payload.isEmpty = true
  · rw [if_pos he]
    exact honest_throw (by simp)
  rw [if_neg he]
  refine honest_bind (s.resolve_ne_backend payload) ?_
  intro values
  apply honest_bind (honest_request _)
  intro (rows : Nat)
  by_cases h : rows = 0
  · simp only [h, if_true]
    exact honest_throw (by simp)
  · simp only [h, if_false]
    exact honest_tell _

theorem honest_examine (id : Int) (tie : Tie) (targetId : Int) :
    (examine id tie targetId).Honest := by
  apply honest_bind (honest_element _)
  intro target
  apply honest_bind (honest_element _)
  intro node
  split
  · exact honest_bind (honest_tell _) fun _ => honest_throw (by simp)
  · cases tie.parent? target with
    | none => exact honest_throw (by simp)
    | some parent => exact honest_pure _

theorem honest_reopen (node : Node) (tie : Tie) (target : Node) (parent : Int) :
    (reopen node tie target parent).Honest := by
  apply honest_bind (honest_makeRoom _ _)
  intro _
  apply honest_bind (honest_request _)
  intro _
  apply honest_bind (honest_element _)
  intro target
  exact honest_bind (honest_element _) fun _ => honest_pure _

theorem honest_relocate (node : Node) (tie : Tie) (target : Node) (parent : Int) :
    (relocate node tie target parent).Honest := by
  rw [relocate_eq]
  apply honest_bind (honest_reopen _ _ _ _)
  rintro ⟨target, current⟩
  apply honest_bind (honest_shift _ _)
  intro _
  exact honest_bind (honest_collapse _) fun _ => honest_tell _

theorem honest_moveTo (id : Int) (tie : Tie) (targetId : Int) :
    (moveTo id tie targetId).Honest := by
  by_cases h : targetId = id
  · rw [moveTo, if_pos h]
    exact honest_bind (honest_tell _) fun _ => honest_pure _
  rw [moveTo_of_ne h]
  apply honest_bind (honest_examine _ _ _)
  rintro ⟨node, target, parent⟩
  exact honest_bind (honest_relocate _ _ _ _) fun _ => honest_pure _

theorem honest_move (id : Int) (placement : Placement) : (move id placement).Honest := by
  cases placement with
  | root => exact honest_throw (by simp)
  | firstChildOf target => exact honest_moveTo id .firstChild target
  | after target => exact honest_moveTo id .nextSibling target

end Editing

theorem Edit.honest_procedure (s : Schema) (e : Edit) : (e.procedure s).Honest := by
  cases e with
  | add payload placement => exact Procedure.honest_map (Editing.honest_add s payload placement)
  | remove id => exact Procedure.honest_map (Editing.honest_remove id)
  | move id placement => exact Procedure.honest_map (Editing.honest_move id placement)
  | update id payload => exact Procedure.honest_map (Editing.honest_update s id payload)
  | copy id placement => exact Procedure.honest_map (Procedure.honest_throw (by simp))

end NestedSet
