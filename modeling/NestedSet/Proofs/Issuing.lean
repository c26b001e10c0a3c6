import Mathlib
import NestedSet.Proofs.Chronicle
import NestedSet.Proofs.Tallying

/-!
# Ids are issued once

Several handles draw the ids of one table from a sequence, while statements
fail at will. Every id that is issued is beyond all those that were issued for
good before, for the counter never falls: what a rollback takes back of it, it
takes back of the ids that were drawn with it.
-/

set_option autoImplicit false

namespace NestedSet

section

variable {name sequence : Identifier} {t₀ : Table} {s : Schema} {induced : Refusal → Prop}
  {counter : WithBot Int} {limit : Int} {db : Database}

/-! ### An edit -/

/-- The table and the sequence are there, and no id is beyond the counter. Neither the counter nor
an id is beyond the limit. -/
def Tallied (name sequence : Identifier) (t₀ : Table) (counter : WithBot Int) (limit : Int)
    (db : Database) : Prop :=
  0 ≤ limit ∧ counter ≤ limit ∧ ∃ t q, Tallies name sequence t₀ db t q counter ∧
    ∀ r ∈ t.rows, r.id ≤ limit

theorem Tallied.mono (h : Tallied name sequence t₀ counter limit db) {limit' : Int}
    (hle : limit ≤ limit') : Tallied name sequence t₀ counter limit' db := by
  obtain ⟨hlimit, hcounter, t, q, ht, hrows⟩ := h
  exact ⟨hlimit.trans hle, hcounter.trans (WithBot.coe_le_coe.2 hle), t, q, ht,
    fun r hr => (hrows r hr).trans hle⟩

def Behind (name sequence : Identifier) (t₀ : Table) (counter : WithBot Int) (limit last : Int)
    (db : Database) : Prop :=
  Tallied name sequence t₀ counter limit db ∧ last ≤ limit ∧
    ∃ t q, Tallies name sequence t₀ db t q counter ∧ counter ≤ last ∧ ∀ r ∈ t.rows, r.id ≤ last

def Drawn (name sequence : Identifier) (t₀ : Table) (counter : WithBot Int) (limit id : Int)
    (db : Database) : Prop :=
  0 ≤ limit ∧ id ≤ limit + 1 ∧
    ∃ t q, Tallies name sequence t₀ db t q id ∧ counter < id ∧ ∀ r ∈ t.rows, r.id < id

theorem Drawn.tallied {id : Int} (h : Drawn name sequence t₀ counter limit id db) :
    Tallied name sequence t₀ id (limit + 1) db := by
  obtain ⟨hlimit, hid, t, q, ht, -, hrows⟩ := h
  exact ⟨by omega, WithBot.coe_le_coe.2 hid, t, q, ht, fun r hr => (hrows r hr).le.trans hid⟩

def Halted (name sequence : Identifier) (t₀ : Table) (counter : WithBot Int) (limit : Int)
    (e : TreeError) (db : Database) : Prop :=
  Tallied name sequence t₀ counter limit db ∧ ∀ refusal, e ≠ .backend .insert refusal

/-- What an edit makes of the counter. It goes up by no more than one. A node that it creates has
the number of the counter, which was not reached before, and is not refused for its id unless such
a failure was induced. -/
def Grants (name sequence : Identifier) (t₀ : Table) (induced : Refusal → Prop)
    (counter : WithBot Int) (limit : Int) (answer : Except TreeError Answer) (db : Database) :
    Prop :=
  ∃ counter', Tallied name sequence t₀ counter' (limit + 1) db ∧ counter ≤ counter' ∧
    (∀ id : Int, answer = .ok (.created id) → counter' = id ∧ counter < id) ∧
    ∀ table, answer = .error (.backend .insert (.notUnique table t₀.id.name)) →
      induced (.notUnique table t₀.id.name)

theorem grants_of_tallied {a : Answer} (h : Tallied name sequence t₀ counter limit db)
    (ha : ∀ id, a ≠ .created id) : Grants name sequence t₀ induced counter limit (.ok a) db := by
  refine ⟨counter, h.mono (by omega), le_refl _, ?_, by simp⟩
  rintro id ⟨⟩
  exact absurd rfl (ha id)

theorem grants_of_halted {e : TreeError} (h : Halted name sequence t₀ counter limit e db) :
    Grants name sequence t₀ induced counter limit (.error e) db := by
  refine ⟨counter, h.1.mono (by omega), le_refl _, by simp, ?_⟩
  rintro table ⟨⟩
  exact absurd rfl (h.2 _)

namespace Editing

open Procedure

theorem ensures_tallied {α : Type} (hne : sequence.key ≠ name.key) (hd : s.Draws name sequence t₀)
    {p : Procedure α} (hp : p.Issues fun q => q.Proper s ∧ q.numbers = false) (hh : p.Honest) :
    p.Ensures s induced (Tallied name sequence t₀ counter limit)
      (either (fun _ => Tallied name sequence t₀ counter limit)
        (Halted name sequence t₀ counter limit)) := by
  have hkept : ∀ (q : Request) (db : Database) (a : q.Reply) (db' : Database),
      q.Proper s ∧ q.numbers = false → Tallied name sequence t₀ counter limit db →
      q.statement s db = .ok (a, db') → Tallied name sequence t₀ counter limit db' := by
    rintro q db a db' hq ⟨hlimit, hcounter, t, q', ht, hrows⟩ hs
    obtain ⟨t', ht', hids⟩ := ht.of_statement hne hd hq.1 hq.2 hs
    refine ⟨hlimit, hcounter, t', q', ht', fun r' hr' => ?_⟩
    obtain ⟨r, hr, hid⟩ := hids r' hr'
    exact hid ▸ hrows r hr
  refine (ensures_of_issues hp hh hkept).imp ?_
  intro answer db h
  cases answer with
  | ok a => exact h.1
  | error e =>
    refine ⟨h.1, ?_⟩
    rintro refusal rfl
    obtain ⟨q, ⟨-, hq⟩, hstep⟩ := h.2 _ _ rfl
    cases q with
    | revise c => cases c <;> cases hstep
    | insert id bounds parent values => cases hq
    | _ => cases hstep

theorem ensures_lastDrawn (hd : s.Draws name sequence t₀) :
    (lastDrawn sequence).Ensures s induced (Tallied name sequence t₀ counter limit)
      (either (Behind name sequence t₀ counter limit)
        (Halted name sequence t₀ counter limit)) := by
  have hcounter : (request (.counter sequence)).Ensures s induced
      (Tallied name sequence t₀ counter limit)
      (either (fun value db => Tallied name sequence t₀ counter limit db ∧ value = counter)
        (Halted name sequence t₀ counter limit)) := by
    apply ensures_request
    · rintro db value db' ⟨hlimit, hle, t, q, ht, hrows⟩ hs
      obtain ⟨hvalue, rfl⟩ := Request.ask_ok hs
      rw [Schema.counter?, Database.table, ht.sequence, hd.table] at hvalue
      exact ⟨⟨hlimit, hle, t, q, ht, hrows⟩, Except.ok.inj (hvalue.symm.trans ht.value)⟩
    · exact fun db refusal ht _ => ⟨ht, by simp [Request.step]⟩
  refine ensures_bind hcounter ?_ fun _ _ h => h
  intro value
  cases value with
  | some value =>
    apply ensures_done
    rintro db ⟨⟨hlimit, hvalue, t, q, ht, hrows⟩, rfl⟩
    refine ⟨⟨hlimit, hvalue, t, q, ht, hrows⟩, WithBot.coe_le_coe.1 hvalue, t, q, ht, le_refl _, ?_⟩
    exact fun r hr => WithBot.coe_le_coe.1 (ht.bound WithBot.coe_ne_bot r hr)
  | none =>
    apply ensures_request
    · rintro db last db' ⟨⟨hlimit, hle, t, q, ht, hrows⟩, rfl⟩ hs
      obtain ⟨hlargest, rfl⟩ := Request.ask_ok hs
      have hfound : db'.table? s.table = some t := by
        rw [hd.table]
        exact ht.found
      exact ⟨⟨hlimit, hle, t, q, ht, hrows⟩,
        Schema.largestId_le hfound (ht.isId hd).id hlimit hrows hlargest, t, q, ht, bot_le,
        Schema.le_largestId hfound (ht.isId hd).id hlargest⟩
    · exact fun db refusal h _ => ⟨h.1, by simp [Request.step]⟩

theorem ensures_drawId (hne : sequence.key ≠ name.key) (hd : s.Draws name sequence t₀) :
    (drawId (.sequence sequence)).Ensures s induced (Tallied name sequence t₀ counter limit)
      (either (fun a db => ∃ id, a = some id ∧ Drawn name sequence t₀ counter limit id db)
        (Halted name sequence t₀ counter limit)) := by
  refine ensures_bind (ensures_lastDrawn hd) ?_ fun _ _ h => h
  intro last
  have hset : (request (.setCounter sequence (last + 1))).Ensures s induced
      (Behind name sequence t₀ counter limit last)
      (either (fun _ => Drawn name sequence t₀ counter limit (last + 1))
        (Halted name sequence t₀ counter limit)) := by
    apply ensures_request
    · rintro db ⟨⟩ db' ⟨htallied, hlast, t, q, ht, hcounter, hrows⟩ hs
      have hbelow : ∀ r ∈ t.rows, r.id < last + 1 := fun r hr => Int.lt_add_one_of_le (hrows r hr)
      obtain ⟨q', ht'⟩ := ht.of_setCounter hne hd (fun r hr => (hbelow r hr).le) hs
      exact ⟨htallied.1, by omega, t, q', ht',
        hcounter.trans_lt (WithBot.coe_lt_coe.2 (Int.lt_succ last)), hbelow⟩
    · rintro db refusal ⟨htallied, -⟩ -
      exact ⟨htallied, by simp [Request.step]⟩
  refine ensures_bind hset ?_ fun _ _ h => h
  exact fun _ => ensures_done fun db h => ⟨last + 1, rfl, h⟩

theorem ensures_insert (hne : sequence.key ≠ name.key) (hd : s.Draws name sequence t₀)
    (ht₀ : t₀.duplicate? = none) {id : Int} {bounds : Bounds} {parent : Option Int}
    {values : List (Field × Value)} (hv : ∀ x ∈ values, x.1 ∈ s.fields) :
    (request (.insert (some id) bounds parent values)).Ensures s induced
      (Drawn name sequence t₀ counter limit id)
      (fun answer => Grants name sequence t₀ induced counter limit (answer.map .created)) := by
  apply ensures_request
  · rintro db a db' ⟨hlimit, hle, t, q, ht, hcounter, hrows⟩ hs
    obtain ⟨hid, t', ht', hrows'⟩ := ht.of_insertNode hne hd hv hs
    have hbelow : ∀ r ∈ t'.rows, r.id ≤ limit + 1 := by
      intro r hr
      rcases hrows' r hr with hnew | hr
      · exact hnew.le.trans hle
      · exact (hrows r hr).le.trans hle
    refine ⟨id, ⟨by omega, WithBot.coe_le_coe.2 hle, t', q, ht', hbelow⟩, hcounter.le, ?_,
      by simp [Except.map]⟩
    intro new hnew
    have hsame : new = id := (Answer.created.inj (Except.ok.inj hnew)).symm.trans hid
    rw [hsame]
    exact ⟨rfl, hcounter⟩
  · rintro db refusal hdrawn hrefusal
    have htallied := hdrawn.tallied
    obtain ⟨-, -, t, q, ht, hcounter, hrows⟩ := hdrawn
    refine ⟨_, htallied, hcounter.le, by simp [Except.map], ?_⟩
    intro table he
    have hsame : refusal = .notUnique table t₀.id.name := by
      simpa [Except.map, Request.step] using he
    rw [hsame] at hrefusal
    rcases hrefusal with h | h | h
    · exact h
    · cases h
    · exact absurd h (ht.insertNode_ne hd ht₀ hrows hv table)

end Editing

theorem Request.quiet_of_not_payload {c : Change} (hc : ∀ id values, c ≠ .payload id values) :
    (revise c).Proper s ∧ (revise c).numbers = false := by
  cases c with
  | payload id values => exact absurd rfl (hc id values)
  | _ => exact ⟨trivial, rfl⟩

open Editing Procedure in
/-- From where no id is beyond the counter, an edit raises it for a node that it creates. -/
theorem Edit.ensures_grants (hne : sequence.key ≠ name.key) (hd : s.Draws name sequence t₀)
    (ht₀ : t₀.duplicate? = none) (e : Edit) :
    (e.procedure s).Ensures s induced (Tallied name sequence t₀ counter limit)
      (Grants name sequence t₀ induced counter limit) := by
  have hfind : ∀ id, (Request.find id).Proper s ∧ (Request.find id).numbers = false :=
    fun _ => ⟨trivial, rfl⟩
  have hrevise : ∀ c : Change, (∀ id values, c ≠ .payload id values) →
      (Request.revise c).Proper s ∧ (Request.revise c).numbers = false :=
    fun _ => Request.quiet_of_not_payload
  have hquiet : ∀ {α : Type} {p : Procedure α} {f : α → Answer},
      (p.Issues fun q => q.Proper s ∧ q.numbers = false) → p.Honest →
      (∀ a id, f a ≠ .created id) →
      (f <$> p).Ensures s induced (Tallied name sequence t₀ counter limit)
        (Grants name sequence t₀ induced counter limit) := by
    intro α p f hp hh hf
    refine ensures_map ((ensures_tallied hne hd hp hh).imp ?_)
    intro answer db h
    cases answer with
    | ok a => exact grants_of_tallied h (hf a)
    | error e => exact grants_of_halted h
  cases e with
  | add payload placement =>
    have hdraw : (drawId s.ids).Ensures s induced (Tallied name sequence t₀ counter limit)
        (either (fun a db => ∃ id, a = some id ∧ Drawn name sequence t₀ counter limit id db)
          (Halted name sequence t₀ counter limit)) := by
      rw [hd.ids]
      exact ensures_drawId hne hd
    -- up to the draw the counter is as it was; once it is raised only the row is left to insert
    refine Edit.ensures_add ⟨trivial, rfl⟩ hfind
      (fun pivot => hrevise (.pushLefts pivot 2) (by simp))
      (fun pivot => hrevise (.pushRights pivot 2) (by simp)) (ensures_tallied hne hd) hdraw
      (ensures_insert hne hd ht₀) (fun _ _ => grants_of_halted) ?_
    intro e db htallied hown
    exact grants_of_halted ⟨htallied, fun refusal => hown _ _⟩
  | remove id =>
    exact hquiet (issues_remove hfind (fun _ => ⟨trivial, rfl⟩) hrevise) (honest_remove id)
      (by simp)
  | move id placement =>
    exact hquiet (Editing.issues_move hfind hrevise) (honest_move id placement) (by simp)
  | update id payload =>
    exact hquiet (issues_update fun _ hvalues => ⟨Schema.mem_fields_of_resolve hvalues, rfl⟩)
      (honest_update s id payload) (by simp)
  | copy id placement =>
    refine ensures_map (ensures_done ?_)
    exact fun db h => grants_of_halted ⟨h, by simp⟩

/-! ### A chronicle -/

def issuedIds (deeds : List Deed) : List Int :=
  deeds.filterMap fun
    | (_, .answer (.ok (.created id))) => some id
    | _ => none

theorem issuedIds_append (deeds deeds' : List Deed) :
    issuedIds (deeds ++ deeds') = issuedIds deeds ++ issuedIds deeds' := List.filterMap_append

theorem issuedIds_ending (x : Handle × Command × Mishaps) (r : Except TreeError Unit) :
    issuedIds [(x, .done r)] = [] := rfl

structure Issuance (name sequence : Identifier) (t₀ : Table) (ids : List Int) (db : Database) :
    Prop where
  ascending : ids.Pairwise (· < ·)
  tallied : ∃ counter limit, Tallied name sequence t₀ counter limit db ∧
    ∀ id ∈ ids, (id : WithBot Int) ≤ counter

theorem Issuance.of_grants {ids : List Int} (hascending : ids.Pairwise (· < ·))
    (hids : ∀ id ∈ ids, (id : WithBot Int) ≤ counter) {answer : Except TreeError Answer}
    (hg : Grants name sequence t₀ induced counter limit answer db)
    (x : Handle × Command × Mishaps) :
    Issuance name sequence t₀ (ids ++ issuedIds [(x, .answer answer)]) db := by
  obtain ⟨counter', htallied, hle, hcreated, -⟩ := hg
  by_cases hnew : ∃ id, answer = .ok (.created id)
  · obtain ⟨id, rfl⟩ := hnew
    obtain ⟨rfl, hlt⟩ := hcreated id rfl
    refine ⟨?_, id, _, htallied, ?_⟩
    · rw [List.pairwise_append]
      refine ⟨hascending, List.pairwise_singleton _ _, ?_⟩
      intro old hold new hnew
      obtain rfl := List.mem_singleton.1 hnew
      exact WithBot.coe_lt_coe.1 ((hids old hold).trans_lt hlt)
    · intro old hold
      rcases List.mem_append.1 hold with hold | hold
      · exact (hids old hold).trans hle
      · rw [List.mem_singleton.1 hold]
  · have hnone : issuedIds [(x, .answer answer)] = [] := by
      cases answer with
      | error e => rfl
      | ok a =>
        cases a with
        | created id => exact absurd ⟨id, rfl⟩ hnew
        | _ => rfl
    rw [hnone, List.append_nil]
    exact ⟨hascending, counter', _, htallied, fun id hid => (hids id hid).trans hle⟩

namespace Chronicle

open Relation (ReflTransGen)

/-- What is committed is not behind the ids that were issued for good; the draft is not behind
those that its transaction issued either. -/
structure Issuing (name sequence : Identifier) (t₀ : Table) (c : Chronicle) : Prop where
  committed : Issuance name sequence t₀ (issuedIds c.settled.flatten) c.session.store.committed
  draft : ∀ w, c.session.store.writer = some w →
    Issuance name sequence t₀ (issuedIds (c.settled.flatten ++ c.pending)) w.draft

variable {c c' : Chronicle}

theorem issuing_resting {settled : List (List Deed)}
    (h : Issuance name sequence t₀ (issuedIds settled.flatten) db) :
    (resting db settled).Issuing name sequence t₀ := ⟨h, by simp [resting]⟩

theorem Issuing.of_leads (hne : sequence.key ≠ name.key) (ht₀ : t₀.duplicate? = none)
    (hc : c.Issuing name sequence t₀)
    (hl : Leads (fun h => h.schema.Draws name sequence t₀) c c') :
    c'.Issuing name sequence t₀ := by
  have hedit : ∀ {h : Handle} {e : Edit} {ids : List Int} {d : Desk} (mishaps : Mishaps),
      h.schema.Draws name sequence t₀ → Issuance name sequence t₀ ids d.database →
      Issuance name sequence t₀ (ids ++ issuedIds [((h, .edit e, mishaps),
          .answer ((e.procedure h.schema).result h.schema d).1)])
        ((e.procedure h.schema).result h.schema d).2.database := by
    intro h e ids d mishaps hd hi
    obtain ⟨hascending, counter, limit, htallied, hids⟩ := hi
    have hgrants : (e.procedure h.schema).Ensures h.schema (fun _ => True)
        (Tallied name sequence t₀ counter limit)
        (Grants name sequence t₀ (fun _ => True) counter limit) :=
      e.ensures_grants hne hd ht₀
    exact .of_grants hascending hids (hgrants d htallied (by simp)) _
  cases hl with
  | @edit db db' settled h e mishaps a ofKind answer store =>
    obtain ⟨d, d', hd, hr, hview⟩ := Session.exists_result answer
    rw [store] at hview
    have hstart : Issuance name sequence t₀ (issuedIds settled.flatten) d.database := by
      rw [hd]
      exact hc.committed
    have hlast := hedit (e := e) mishaps ofKind hstart
    rw [hr, ← hview] at hlast
    apply issuing_resting
    simpa [issuedIds_append, Store.view] using hlast
  | begin ofKind ready =>
    refine ⟨hc.committed, ?_⟩
    rintro w ⟨⟩
    simp only [writing, issuedIds_append, issuedIds_ending, List.append_nil]
    exact hc.committed
  | @editWithin db draft draft' settled pending h e mishaps ofKind store =>
    refine ⟨hc.committed, ?_⟩
    rintro w ⟨⟩
    have hlast := hedit (e := e) (d := ⟨draft, mishaps, [], false⟩) mishaps ofKind
      (hc.draft _ rfl)
    rw [Session.edit_of_held] at store
    have hopen : (h.editWithin ⟨db, some ⟨h.connection, draft⟩⟩ e mishaps).store.isWriting
        h.connection = true := by
      rw [store]
      exact Store.isWriting_iff.2 rfl
    obtain ⟨hanswer, hstore⟩ := Handle.editWithin_of_isWriting hopen
    obtain rfl : draft' = _ :=
      congrArg Writer.draft (Option.some.inj (congrArg Store.writer (store.symm.trans hstore)))
    simp only [writing, Session.edit_of_held, hanswer]
    rw [← List.append_assoc, issuedIds_append _ [_]]
    exact hlast
  | commit ofKind ready =>
    apply issuing_resting
    have hlast := hc.draft _ rfl
    simpa [writing, issuedIds_append, issuedIds_ending] using hlast
  | release =>
    -- the draft takes along the ids that it issued and the counter that they raised
    exact issuing_resting hc.committed

theorem Issuing.of_reach (hne : sequence.key ≠ name.key) (ht₀ : t₀.duplicate? = none)
    (hc : c.Issuing name sequence t₀)
    (hl : ReflTransGen (Leads fun h => h.schema.Draws name sequence t₀) c c') :
    c'.Issuing name sequence t₀ := by
  induction hl with
  | refl => exact hc
  | tail _ hlast ih => exact ih.of_leads hne ht₀ hlast

end Chronicle

/-! ### How far the counter goes -/

def Bounded (name sequence : Identifier) (t₀ : Table) (limit : Int) (db : Database) : Prop :=
  ∃ counter, Tallied name sequence t₀ counter limit db

theorem Edit.takes_bounded (hne : sequence.key ≠ name.key) (hd : s.Draws name sequence t₀)
    (ht₀ : t₀.duplicate? = none) (e : Edit) :
    e.Takes s (Bounded name sequence t₀ limit) (Bounded name sequence t₀ (limit + 1)) := by
  refine ⟨fun db h => h.imp fun _ h => h.mono (by omega), ?_⟩
  rintro d ⟨counter, htallied⟩
  have hgrants : (e.procedure s).Ensures s (fun _ => True)
      (Tallied name sequence t₀ counter limit)
      (Grants name sequence t₀ (fun _ => True) counter limit) := e.ensures_grants hne hd ht₀
  exact (hgrants d htallied (by simp)).imp fun _ h => h.1

theorem Edit.takes_bounded_move (hne : sequence.key ≠ name.key) (hd : s.Draws name sequence t₀)
    (id : Int) (placement : Placement) :
    (move id placement).Takes s (Bounded name sequence t₀ limit)
      (Bounded name sequence t₀ limit) := by
  refine ⟨fun _ h => h, ?_⟩
  rintro d ⟨counter, htallied⟩
  have hkeeps : ((move id placement).procedure s).Ensures s (fun _ => True)
      (Tallied name sequence t₀ counter limit)
      (Procedure.either (fun _ => Tallied name sequence t₀ counter limit)
        (Halted name sequence t₀ counter limit)) :=
    Editing.ensures_tallied hne hd (Procedure.issues_map (Editing.issues_move
      (fun _ => ⟨trivial, rfl⟩) fun _ => Request.quiet_of_not_payload))
      (honest_procedure s (move id placement))
  have hlast := hkeeps d htallied (by simp)
  cases hr : (((move id placement).procedure s).result s d).1 with
  | ok a =>
    rw [hr] at hlast
    exact ⟨counter, hlast⟩
  | error e =>
    rw [hr] at hlast
    exact ⟨counter, hlast.1⟩

/-- A run raises the limit by no more than one at each step. -/
theorem Session.bounded_run (hne : sequence.key ≠ name.key) (ht₀ : t₀.duplicate? = none)
    {session : Session} (hs : session.store.Every (Bounded name sequence t₀ limit))
    {steps : List (Handle × Command × Mishaps)}
    (hdraws : ∀ x ∈ steps, x.1.schema.Draws name sequence t₀) :
    (session.run steps).2.store.Every (Bounded name sequence t₀ (limit + steps.length)) := by
  induction steps generalizing session limit with
  | nil =>
    rw [List.length_nil, Nat.cast_zero, add_zero]
    exact hs
  | cons x rest ih =>
    obtain ⟨h, command, mishaps⟩ := x
    rw [List.forall_mem_cons] at hdraws
    have hstep := every_perform hs (fun e => e.takes_bounded hne hdraws.1 ht₀)
      (Edit.takes_bounded_move hne hdraws.1) command mishaps
    have hlast := ih hstep hdraws.2
    rw [List.length_cons, Nat.cast_add_one, add_comm (rest.length : Int) 1, ← add_assoc]
    exact hlast

end

/-- Handles draw the ids of a table from one sequence, in any partitions and any order, in
transactions of their own or in ones that their users hold and do not lose, from when there is no
counter for the table yet, and there are ids left for all that they do. Then whoever looks finds no
id in the table beyond its counter, once there is one, and the counter short of the largest id; no
node that is added is refused because its id is taken; and the ids of the nodes that were added for
good go up in the order of the commits. -/
theorem sequence_ids_are_unique {name sequence : Identifier} {start : Database} {t q : Table}
    {steps : List (Handle × Command × Mishaps)} (hne : sequence.key ≠ name.key)
    (ht : start.table? name = some t) (hplain : t.duplicate? = none)
    (hq : start.table? sequence = some q) (hdeclared : Sequence.Declared q)
    (hfresh : Sequence.value? q name.name = .ok none)
    (hleft : ∀ id ∈ 0 :: t.rows.map (·.id), id + steps.length < maxId)
    (hdraws : ∀ x ∈ steps, x.1.schema.Draws name sequence t)
    (hu : Session.Unbroken ⟨⟨start, none⟩, []⟩ steps) :
    let s := (Session.run ⟨⟨start, none⟩, []⟩ steps).2
    let c := Chronicle.run (.resting start []) steps
    (∀ connection, ∃ t' q', (s.store.view connection).table? name = some t' ∧
      (s.store.view connection).table? sequence = some q' ∧
      (Sequence.value? q' name.name = .ok none ∨
        ∃ value, Sequence.value? q' name.name = .ok (some value) ∧ value < maxId ∧
          ∀ r ∈ t'.rows, r.id ≤ value)) ∧
    (∀ (h : Handle) (payload : List (String × Value)) (placement : Placement) (mishaps : Mishaps)
        (table : String), h.schema.Draws name sequence t →
      some (.notUnique table t.id.name) ∉ mishaps →
      (s.edit h (.add payload placement) mishaps).answer ≠
        .error (.backend .insert (.notUnique table t.id.name))) ∧
    (issuedIds c.settled.flatten).Pairwise (· < ·) := by
  intro s c
  rw [List.forall_mem_cons, List.forall_mem_map] at hleft
  have htallied : Tallied name sequence t ⊥ (maxId - 1 - steps.length) start := by
    refine ⟨by omega, bot_le, t, q, ?_, fun r hr => ?_⟩
    · exact ⟨ht, rfl, rfl, hq, hdeclared, hfresh, fun h => absurd rfl h⟩
    · have hid := hleft.2 r hr
      omega
  have hbounded : s.store.Every (Bounded name sequence t (maxId - 1)) := by
    have hstarted : Store.Every (Bounded name sequence t (maxId - 1 - steps.length))
        (Session.mk ⟨start, none⟩ []).store := ⟨⟨⊥, htallied⟩, by simp⟩
    have hrun := Session.bounded_run hne hplain hstarted hdraws
    rwa [sub_add_cancel] at hrun
  have hstart : Issuance name sequence t (issuedIds []) start :=
    ⟨.nil, ⊥, _, htallied, by simp [issuedIds]⟩
  have hissuing : c.Issuing name sequence t :=
    (Chronicle.issuing_resting hstart).of_reach hne hplain
      (Chronicle.leads_run (.resting start []) hdraws hu)
  refine ⟨?_, ?_, hissuing.committed.ascending⟩
  · intro connection
    obtain ⟨counter, -, hlast, t', q', htallies, -⟩ := hbounded.view connection
    refine ⟨t', q', htallies.found, htallies.sequence, ?_⟩
    cases counter with
    | bot => exact .inl htallies.value
    | coe value =>
      refine .inr ⟨value, htallies.value, ?_, ?_⟩
      · exact Int.lt_of_le_sub_one (WithBot.coe_le_coe.1 hlast)
      · exact fun r hr => WithBot.coe_le_coe.1 (htallies.bound WithBot.coe_ne_bot r hr)
  · intro h payload placement mishaps table hd hm herror
    obtain ⟨counter, htallied⟩ := hbounded.view h.connection
    rcases s.edit_cases h (.add payload placement) mishaps with
      ⟨step, refusal, hstep, hanswer⟩ | ⟨d, d', hview, hmishaps, hresult, -⟩
    · rw [hanswer] at herror
      cases herror
      rcases hstep with hstep | hstep <;> cases hstep
    · rw [← hview] at htallied
      obtain ⟨-, -, -, -, hinduced⟩ := Edit.ensures_grants hne hd hplain (.add payload placement) d
        htallied hmishaps
      rw [hresult] at hinduced
      exact hm (hinduced table herror)

def gladeHandle (n : Nat) : Handle :=
  ⟨n, ⟨⟨"t"⟩, ⟨"id"⟩, ⟨"l"⟩, ⟨"r"⟩, ⟨"parent"⟩, some ⟨⟨"part"⟩, .integer n⟩, [], .left,
    .sequence ⟨"s"⟩⟩⟩

def gladeTable : Table :=
  { Table.ofSchema (gladeHandle 0).schema with
    rows := [⟨4, [("l", .integer 1), ("r", .integer 2), ("part", .integer 2)]⟩]
    fits := by decide }

/-- The second handle takes back what it has drawn; the first one removes the node that had the
largest id. -/
def gladeSteps : List (Handle × Command × Mishaps) :=
  [(gladeHandle 0, .edit (.add [] .root), []), (gladeHandle 1, .begin, []),
    (gladeHandle 1, .edit (.add [] .root), []), (gladeHandle 1, .finish .rollback, []),
    (gladeHandle 0, .edit (.remove 5), []), (gladeHandle 1, .edit (.add [] .root), [])]

theorem sequence_ids_are_unique_glade :
    let start : Database := { tables := [gladeTable, .ofSequence ⟨"s"⟩] }
    let s := (Session.run ⟨⟨start, none⟩, []⟩ gladeSteps).2
    let c := Chronicle.run (.resting start []) gladeSteps
    Session.Unbroken ⟨⟨start, none⟩, []⟩ gladeSteps ∧
      issuedIds c.settled.flatten = [5, 6] ∧ (issuedIds c.settled.flatten).Pairwise (· < ·) ∧
      (s.edit (gladeHandle 0) (.add [] .root)).answer ≠
        .error (.backend .insert (.notUnique "t" "id")) := by
  intro start s c
  have hu : Session.Unbroken ⟨⟨start, none⟩, []⟩ gladeSteps := by decide +kernel
  have hapart : (gladeHandle 0).schema.IdsApart gladeTable :=
    ⟨by decide +kernel, by decide +kernel⟩
  have hdraws : ∀ n : Nat, (gladeHandle n).schema.Draws ⟨"t"⟩ ⟨"s"⟩ gladeTable :=
    fun _ => ⟨rfl, rfl, by simp [Schema.IsCovered, gladeHandle], hapart.id, hapart.others⟩
  have hne : Identifier.key ⟨"s"⟩ ≠ Identifier.key ⟨"t"⟩ := by decide +kernel
  have ht : start.table? ⟨"t"⟩ = some gladeTable := by decide +kernel
  have hq : start.table? ⟨"s"⟩ = some (.ofSequence ⟨"s"⟩) := by decide +kernel
  have hfresh : Sequence.value? (.ofSequence ⟨"s"⟩) "t" = .ok none := by decide +kernel
  obtain ⟨-, hadd, hids⟩ := sequence_ids_are_unique hne ht (by decide +kernel) hq
    (Sequence.declared_ofSequence _) hfresh (by decide) (by simp [gladeSteps, hdraws]) hu
  refine ⟨hu, by decide +kernel, hids, ?_⟩
  exact hadd (gladeHandle 0) [] .root [] "t" (hdraws 0) (by simp)

/-- A mapping one of whose fields is kept in the ids, by another name of theirs. -/
def trespassing : Mapping :=
  { table := "t", fields := [⟨"x", some "rowid", none⟩], ids := .sequence "s" }

/-- A payload that overwrites ids gets ahead of the counter, which draws an id that is taken. -/
theorem payload_takes_next_id :
    let h : Handle :=
      ⟨0, ⟨⟨"t"⟩, ⟨"id"⟩, ⟨"l"⟩, ⟨"r"⟩, ⟨"parent"⟩, none, [], .left, .sequence ⟨"s"⟩⟩⟩
    let g : Handle := ⟨1, { h.schema with fields := [⟨"x", ⟨"rowid"⟩, none⟩] }⟩
    let start := (g.ensure (h.ensure {}).2).2
    let steps : List (Handle × Command × Mishaps) :=
      [(h, .edit (.add [] .root), []), (g, .edit (.update 1 [("x", .integer 2)]), [])]
    let s := (Session.run ⟨start, []⟩ steps).2
    Mapping.validate { table := "t", ids := .sequence "s" } = .ok h.schema ∧
      trespassing.validate = .ok g.schema ∧ start.writer = none ∧
      (start.committed.table? ⟨"s"⟩).map (Sequence.value? · "t") = some (.ok none) ∧
      Session.Unbroken ⟨start, []⟩ steps ∧
      (s.store.committed.table? ⟨"s"⟩).map (Sequence.value? · "t") = some (.ok (some 1)) ∧
      (s.store.committed.table? ⟨"t"⟩).map (·.rows.map (·.id)) = some [2] ∧
      (s.edit h (.add [] (.firstChildOf 2))).answer =
        .error (.backend .insert (.notUnique "t" "id")) := by
  decide +kernel

end NestedSet
