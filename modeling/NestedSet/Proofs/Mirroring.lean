import Mathlib
import NestedSet.Proofs.OwnErrors

/-!
# One run beside another

Two databases may hold the same rows of one partition and anything whatever in
the others. The edits of that partition go the same way on both: statement by
statement the replies are the same and the rows stay the same. The partition
is all that a statement sees, but for the id that is next.
-/

set_option autoImplicit false

namespace NestedSet

/-! ### Procedures on two databases -/

namespace Procedure

variable {α β : Type} {s : Schema} {db db₁ db₂ : Database}

theorem ends_unique {p : Procedure α} {a b : Except TreeError α} (ha : p.Ends s db a db₁)
    (hb : p.Ends s db b db₂) : b = a ∧ db₂ = db₁ := by
  induction p generalizing db with
  | done answer =>
    obtain ⟨rfl, rfl⟩ := ha
    exact hb
  | issue q next ih =>
    obtain ⟨x, db₃, hx, ha⟩ := ha
    obtain ⟨y, db₄, hy, hb⟩ := hb
    cases hx.symm.trans hy
    exact ih x ha hb
  | report event next ih => exact ih ha hb

end Procedure

theorem Request.ask_of_ok {α : Type} {question : Database → Except Refusal α} {db : Database}
    {a : α} (h : question db = .ok a) : ask question db = .ok (a, db) := by
  simp [ask, h, bind, Except.bind, pure, Except.pure]

/-- What a statement answers on one database it answers on any other that is related to it, if
it is answered there at all, as it is in calm. -/
def Request.Mirrors (s : Schema) (calm : Prop) (R : Database → Database → Prop) (q : Request)
    (Q : q.Reply → Database → Database → Prop) : Prop :=
  ∀ ⦃db₁ db₂ : Database⦄ ⦃a : q.Reply⦄ ⦃db₁' : Database⦄, R db₁ db₂ →
    q.statement s db₁ = .ok (a, db₁') → (calm ∨ ∃ b db₂', q.statement s db₂ = .ok (b, db₂')) →
    ∃ db₂', q.statement s db₂ = .ok (a, db₂') ∧ Q a db₁' db₂'

namespace Procedure

variable {α β : Type} {s : Schema} {calm : Prop} {R R' : Database → Database → Prop}

def Mirrors (s : Schema) (calm : Prop) (R : Database → Database → Prop) (p : Procedure α)
    (Q : Except TreeError α → Database → Database → Prop) : Prop :=
  ∀ ⦃db₁ db₂ : Database⦄ ⦃a : Except TreeError α⦄ ⦃db₁' : Database⦄, R db₁ db₂ →
    p.Ends s db₁ a db₁' → (calm ∨ ∃ b db₂', p.Ends s db₂ b db₂') →
    ∃ db₂', p.Ends s db₂ a db₂' ∧ Q a db₁' db₂'

theorem mirrors_done (answer : Except TreeError α) :
    (done answer).Mirrors s calm R fun _ => R := by
  rintro db₁ db₂ _ _ hR ⟨rfl, rfl⟩ -
  exact ⟨db₂, ⟨rfl, rfl⟩, hR⟩

theorem mirrors_request {q : Request} {Q : Except TreeError q.Reply → Database → Database → Prop}
    (h : q.Mirrors s calm R fun a => Q (.ok a)) : (request q).Mirrors s calm R Q := by
  intro db₁ db₂ answer db₁' hR hends hsecond
  obtain ⟨a, hstatement, rfl⟩ := ends_request.1 hends
  have hanswered : calm ∨ ∃ b db₂', q.statement s db₂ = .ok (b, db₂') := by
    refine hsecond.imp_right ?_
    rintro ⟨b, db₂', hb⟩
    obtain ⟨c, hc, -⟩ := ends_request.1 hb
    exact ⟨c, db₂', hc⟩
  obtain ⟨db₂', hstatement', hQ⟩ := h hR hstatement hanswered
  exact ⟨db₂', ends_request.2 ⟨a, hstatement', rfl⟩, hQ⟩

theorem mirrors_bind {p : Procedure α} {f : α → Procedure β}
    {Q : Except TreeError α → Database → Database → Prop}
    {Q' : Except TreeError β → Database → Database → Prop} (hp : p.Mirrors s calm R Q)
    (hf : ∀ a, (f a).Mirrors s calm (Q (.ok a)) Q')
    (he : ∀ e db₁ db₂, Q (.error e) db₁ db₂ → Q' (.error e) db₁ db₂) :
    (p >>= f).Mirrors s calm R Q' := by
  intro db₁ db₂ answer db₁' hR hends hsecond
  have hfirst : calm ∨ ∃ b db₂', p.Ends s db₂ b db₂' := by
    refine hsecond.imp_right ?_
    rintro ⟨b, db₂', hb⟩
    obtain ⟨a, db₃, ha, -⟩ | ⟨e, he', -⟩ := ends_bind.1 hb
    · exact ⟨.ok a, db₃, ha⟩
    · exact ⟨.error e, db₂', he'⟩
  obtain ⟨a, db₃, ha, hrest⟩ | ⟨e, herror, rfl⟩ := ends_bind.1 hends
  · obtain ⟨db₄, ha', hQ⟩ := hp hR ha hfirst
    have hnext : calm ∨ ∃ b db₂', (f a).Ends s db₄ b db₂' := by
      refine hsecond.imp_right ?_
      rintro ⟨b, db₂', hb⟩
      obtain ⟨c, db₅, hc, hb⟩ | ⟨e, he', -⟩ := ends_bind.1 hb
      · obtain ⟨hca, rfl⟩ := ends_unique ha' hc
        cases hca
        exact ⟨b, db₂', hb⟩
      · cases (ends_unique ha' he').1
    obtain ⟨db₂', hrest', hQ'⟩ := hf a hQ hrest hnext
    exact ⟨db₂', ends_bind.2 (.inl ⟨a, db₄, ha', hrest'⟩), hQ'⟩
  · obtain ⟨db₂', herror', hQ⟩ := hp hR herror hfirst
    exact ⟨db₂', ends_bind.2 (.inr ⟨e, herror', rfl⟩), he e _ _ hQ⟩

theorem mirrors_bind_lift {answer : Except TreeError α} {f : α → Procedure β}
    {Q : Except TreeError β → Database → Database → Prop}
    (hf : ∀ a, answer = .ok a → (f a).Mirrors s calm R Q)
    (he : ∀ e db₁ db₂, R db₁ db₂ → Q (.error e) db₁ db₂) :
    ((liftM answer : Procedure α) >>= f).Mirrors s calm R Q := by
  cases answer with
  | ok a => exact hf a rfl
  | error e =>
    rintro db₁ db₂ _ _ hR ⟨rfl, rfl⟩ -
    exact ⟨db₂, ⟨rfl, rfl⟩, he e _ _ hR⟩

theorem mirrors_map {f : α → β} {p : Procedure α} (hp : p.Mirrors s calm R fun _ => R') :
    (f <$> p).Mirrors s calm R fun _ => R' :=
  mirrors_bind hp (fun _ => mirrors_done _) fun _ _ _ h => h

/-- A relation that every statement keeps is kept by the run. -/
theorem mirrors_of_issues {P : Request → Prop} {p : Procedure α} (hp : p.Issues P)
    (hR : ∀ q, P q → q.Mirrors s calm R fun _ => R) : p.Mirrors s calm R fun _ => R := by
  induction p with
  | done answer => exact mirrors_done answer
  | issue q next ih =>
    have hfirst : (request q).Mirrors s calm R fun _ => R := mirrors_request (hR q hp.1)
    exact mirrors_bind hfirst (fun a => ih a (hp.2 a)) fun _ _ _ h => h
  | report event next ih => exact ih hp

end Procedure

end NestedSet
