import Mathlib
import NestedSet.Proofs.Siblings

/-!
# Moving many nodes to one place

The moves of a batch are made one after another, yet each answers what it would
answer alone, for none changes what is above the common target. Every node
that moves comes next to the target and pushes those before it along. So in
the end they stand there in the order of their last moves, the last one first.
-/

set_option autoImplicit false

namespace NestedSet

def Forest.carried (placement : Placement) (f : Forest Item) (id : Int) : Forest Item :=
  match f.transplant id placement with
  | .ok (_, g) => g
  | .error _ => f

def Forest.batch (placement : Placement) : Forest Item → List Int → MoveReport
  | _, [] => []
  | f, id :: rest =>
    (id, (f.transplant id placement).map fun x => .placed x.1) ::
      (f.carried placement id).batch placement rest

theorem Edit.grown_move (s : Schema) (new : Int) (f : Forest Item) (id : Int)
    (placement : Placement) : (Edit.move id placement).grown s new f = f.carried placement id := by
  simp only [Edit.grown, Edit.onForest, Forest.carried]
  cases f.transplant id placement <;> rfl

namespace Editing

open Relation (TransGen)

variable {f g : Forest Item} {tie : Tie} {id targetId parent : Int}

def Tie.moves (tie : Tie) (targetId : Int) (f : Forest Item) (id : Int) : Bool :=
  decide ((f.transplant id (tie.placement targetId)).map Prod.fst = .ok .moved)

theorem Tie.moves_self (tie : Tie) (targetId : Int) (f : Forest Item) :
    tie.moves targetId f targetId = false := by
  rw [moves, tie.transplant_self]
  rfl

theorem Tie.carried_cases (tie : Tie) (targetId : Int) (hf : f.ids.Nodup) (id : Int) :
    (tie.moves targetId f id = true ∧
      ∃ parent, tie.Carries id targetId f (f.carried (tie.placement targetId) id) parent) ∨
    (tie.moves targetId f id = false ∧ f.carried (tie.placement targetId) id = f) := by
  unfold moves Forest.carried
  cases htrans : f.transplant id (tie.placement targetId) with
  | error e => exact .inr ⟨rfl, rfl⟩
  | ok x =>
    obtain ⟨outcome, g⟩ := x
    cases outcome with
    | moved => exact .inl ⟨rfl, Tie.exists_carries hf htrans⟩
    | alreadyInPlace =>
      refine .inr ⟨rfl, ?_⟩
      by_cases hne : targetId = id
      · rw [hne, tie.transplant_self] at htrans
        cases htrans
        rfl
      · rw [tie.transplant_eq hne] at htrans
        cases hc : f.cutting id targetId with
        | error e => simp [hc] at htrans
        | ok subtree =>
          simp only [hc] at htrans
          split at htrans <;> cases htrans

namespace Tie.Carries

variable (h : tie.Carries id targetId f g parent)

include h

theorem nodup (hf : f.ids.Nodup) : g.ids.Nodup := h.ids.nodup_iff.2 hf

theorem leads_after : tie.Leads g.nodes targetId parent := by
  obtain ⟨target, ht, rfl, hp⟩ := h.leads
  cases tie with
  | firstChild =>
    have hhas : g.has target.id = true := by
      rw [h.agreeAbove.has]
      exact Forest.has_of_mem_nodes ht
    obtain ⟨target', ht', hid⟩ := Forest.exists_of_has hhas
    exact ⟨target', ht', hid, (congrArg some hid).trans hp⟩
  | nextSibling => exact (h.parents parent target.id).2 (.inr ⟨h.ne, target, ht, rfl, hp⟩)

end Tie.Carries

theorem Tie.Leads.unique (hf : f.ids.Nodup) {p q : Int} (hp : tie.Leads f.nodes targetId p)
    (hq : tie.Leads f.nodes targetId q) : p = q := by
  obtain ⟨n, hn, hid, hp⟩ := hp
  obtain ⟨m, hm, rfl, hq⟩ := hq
  rw [Forest.eq_of_mem_nodes hf hn hm hid] at hp
  exact Option.some.inj (hp.symm.trans hq)

namespace AgreeAbove

theorem refl (target : Int) (f : Forest Item) : AgreeAbove target f f :=
  ⟨fun _ => rfl, fun _ => .rfl⟩

theorem trans {target : Int} {e f g : Forest Item} (h : AgreeAbove target e f)
    (h' : AgreeAbove target f g) : AgreeAbove target e g :=
  ⟨fun id => (h'.has id).trans (h.has id), fun a => (h'.above a).trans (h.above a)⟩

theorem moves_eq (hf : f.ids.Nodup) (hg : g.ids.Nodup) (h : AgreeAbove targetId f g) :
    tie.moves targetId g = tie.moves targetId f := by
  funext id
  rw [Tie.moves, Tie.moves, tie.transplant_congr hf hg h]

end AgreeAbove

/-! ### The moves of a batch -/

theorem Tie.gather_nil (tie : Tie) (target : Int) (l : List Int) : tie.gather target [] l = l := by
  cases tie with
  | firstChild => rfl
  | nextSibling =>
    rw [gather, insertBehind]
    simp

/-- What is gathered later comes before what was gathered first. -/
theorem Tie.gather_gather (tie : Tie) {target id : Int} (hne : target ≠ id)
    {moved : List Int} (ht : target ∉ moved) (l : List Int) :
    tie.gather target moved.dedup.reverse
        ((tie.gather target [id] (l.filter fun i => decide (i ≠ id))).filter
          fun i => decide (i ∉ moved)) =
      tie.gather target (id :: moved).dedup.reverse
        (l.filter fun i => decide (i ∉ id :: moved)) := by
  have horder : (id :: moved).dedup.reverse =
      moved.dedup.reverse ++ [id].filter fun i => decide (i ∉ moved) := by
    by_cases hid : id ∈ moved
    · simp [List.dedup_cons_of_mem hid, hid]
    · simp [List.dedup_cons_of_notMem hid, hid]
  have hothers : (l.filter fun i => decide (i ≠ id)).filter (fun i => decide (i ∉ moved)) =
      l.filter fun i => decide (i ∉ id :: moved) := by
    rw [List.filter_filter]
    apply List.filter_congr
    intro i _
    simp [not_or, Bool.and_comm]
  cases tie with
  | firstChild => simp only [gather, List.filter_append, hothers, horder, List.append_assoc]
  | nextSibling =>
    have hlater : target ∉ [id].filter fun i => decide (i ∉ moved) := by
      intro hmem
      exact hne (List.mem_singleton.1 (List.mem_filter.1 hmem).1)
    simp only [gather]
    rw [filter_insertBehind (by simpa using ht), insertBehind_insertBehind hlater, hothers, horder]

/-- What a batch of moves makes of a forest. -/
structure Tie.Gathers (tie : Tie) (targetId : Int) (f g : Forest Item) (moved : List Int) :
    Prop where
  ids : g.ids.Perm f.ids
  agree : AgreeAbove targetId f g
  parents : ∀ b, b ∉ moved → ∀ a, IsParent g.nodes a b ↔ IsParent f.nodes a b
  children : ∀ parent, tie.Leads f.nodes targetId parent → childIds g.nodes parent =
    tie.gather targetId moved.dedup.reverse
      ((childIds f.nodes parent).filter fun i => decide (i ∉ moved))

theorem Tie.gathers_foldl (hf : f.ids.Nodup) (ids : List Int) :
    tie.Gathers targetId f (ids.foldl (Forest.carried (tie.placement targetId)) f)
      (ids.filter (tie.moves targetId f)) := by
  induction ids generalizing f with
  | nil =>
    refine ⟨.refl _, .refl _ _, fun _ _ _ => .rfl, fun q _ => ?_⟩
    simp [tie.gather_nil]
  | cons id rest ih =>
    rw [List.foldl_cons]
    obtain ⟨hmoves, parent, hcarries⟩ | ⟨hmoves, hsame⟩ := tie.carried_cases targetId hf id
    · have hagree := hcarries.agreeAbove
      have hnodup := hcarries.nodup hf
      have hrest := ih hnodup
      -- which of the moves to come are carried out does not depend on this one
      rw [hagree.moves_eq hf hnodup] at hrest
      rw [List.filter_cons_of_pos hmoves]
      have htarget : targetId ∉ rest.filter (tie.moves targetId f) := by
        simp [List.mem_filter, tie.moves_self]
      refine ⟨hrest.ids.trans hcarries.ids, hagree.trans hrest.agree, ?_, ?_⟩
      · intro b hb a
        rw [List.mem_cons, not_or] at hb
        rw [hrest.parents b hb.2 a, hcarries.parents]
        simp [hb.1]
      · intro q hq
        obtain rfl := hq.unique hf hcarries.leads
        rw [hrest.children q hcarries.leads_after, hcarries.children,
          tie.gather_gather hcarries.ne htarget]
    · rw [List.filter_cons_of_neg (by simp [hmoves]), hsame]
      exact ih hf

theorem Tie.batch_eq {e : Forest Item} (he : e.ids.Nodup) (hf : f.ids.Nodup)
    (h : AgreeAbove targetId e f) (ids : List Int) :
    f.batch (tie.placement targetId) ids = ids.map fun id =>
      (id, (e.transplant id (tie.placement targetId)).map fun x => .placed x.1) := by
  induction ids generalizing f with
  | nil => rfl
  | cons id rest ih =>
    have hanswer := tie.transplant_congr he hf h id
    have hplaced : ∀ x : Except TreeError (MoveOutcome × Forest Item),
        (x.map fun x => Answer.placed x.1) = (x.map Prod.fst).map Answer.placed := by
      intro x
      cases x <;> rfl
    rw [Forest.batch, List.map_cons, hplaced, hanswer, ← hplaced]
    congr 1
    obtain ⟨-, parent, hcarries⟩ | ⟨-, hsame⟩ := tie.carried_cases targetId hf id
    · exact ih (hcarries.nodup hf) (h.trans hcarries.agreeAbove)
    · rw [hsame]
      exact ih hf h

theorem Tie.Gathers.exists_same_parent {moved : List Int} (h : tie.Gathers targetId f g moved)
    (hf : f.ids.Nodup) {n : Node} (hn : n ∈ f.nodes) (hid : n.id ∉ moved) :
    ∃ m ∈ g.nodes, m.id = n.id ∧ m.parent = n.parent := by
  have hg : g.ids.Nodup := h.ids.nodup_iff.2 hf
  have hhas : g.has n.id = true := by
    rw [h.agree.has]
    exact Forest.has_of_mem_nodes hn
  obtain ⟨m, hm, hmn⟩ := Forest.exists_of_has hhas
  refine ⟨m, hm, hmn, ?_⟩
  apply Option.ext
  intro a
  constructor
  · intro ha
    obtain ⟨n', hn', heq, hp⟩ := (h.parents n.id hid a).1 ⟨m, hm, hmn, ha⟩
    rwa [← Forest.eq_of_mem_nodes hf hn' hn heq]
  · intro ha
    obtain ⟨m', hm', heq, hp⟩ := (h.parents n.id hid a).2 ⟨n, hn, rfl, ha⟩
    rwa [Forest.eq_of_mem_nodes hg hm hm' (hmn.trans heq.symm)]

theorem Tie.exists_leads_of_moves (hf : f.ids.Nodup) (h : tie.moves targetId f id = true) :
    ∃ parent, tie.Leads f.nodes targetId parent := by
  obtain ⟨-, parent, hcarries⟩ | ⟨hnot, -⟩ := tie.carried_cases targetId hf id
  · exact ⟨parent, hcarries.leads⟩
  · rw [h] at hnot
    cases hnot

end Editing

theorem MoveReport.moved_eq_filter (tie : Editing.Tie) (targetId : Int) (f : Forest Item)
    (ids : List Int) :
    MoveReport.moved (ids.map fun id =>
      (id, (f.transplant id (tie.placement targetId)).map fun x => .placed x.1)) =
      ids.filter (tie.moves targetId f) := by
  unfold MoveReport.moved Editing.Tie.moves
  rw [List.filterMap_map, ← List.filterMap_eq_filter]
  congr 1
  funext id
  rcases htrans : f.transplant id (tie.placement targetId) with e | ⟨_ | _, g⟩ <;>
    simp [htrans, Except.map, Option.guard]

/-! ### The moves through a handle -/

section

variable {h : Handle} {db : Database} {t : Table} {f : Forest Item} {supply : Supply}

theorem Handle.edit_move_of_calls (hs : h.schema.Sound) (hst : Stands h.schema db t f supply)
    {id : Int} {placement : Placement}
    (hc : ∀ c ∈ h.calls ⟨db, none⟩ (.move id placement) [], c.2 = none) :
    (h.edit ⟨db, none⟩ (.move id placement)).answer =
        (f.transplant id placement).map (fun x => .placed x.1) ∧
      (h.edit ⟨db, none⟩ (.move id placement)).mishaps = [] ∧
      ∃ db' t' supply', (h.edit ⟨db, none⟩ (.move id placement)).store = ⟨db', none⟩ ∧
        Stands h.schema db' t' (f.carried placement id) supply' := by
  obtain ⟨answer, db', hends⟩ := Handle.exists_ends hc
  obtain ⟨hanswer, hstore, -⟩ := Handle.edit_of_ends hends
  obtain ⟨new, t', supply', heq, hst'⟩ := Edit.stands_of_ends hs hst hends
  have hplaced : answer = (f.transplant id placement).map fun x => .placed x.1 := by
    rw [heq, Edit.onForest]
    cases f.transplant id placement <;> rfl
  refine ⟨hanswer.trans hplaced, Handle.mishaps_of_ends hends, ?_⟩
  rw [Edit.grown_move] at hst'
  rw [hstore]
  cases htrans : f.transplant id placement with
  | ok x =>
    rw [hplaced, htrans]
    exact ⟨db', t', supply', rfl, hst'⟩
  | error e =>
    have hsame : f.carried placement id = f := by rw [Forest.carried, htrans]
    rw [hplaced, htrans, hsame]
    exact ⟨db, t, supply, rfl, hst⟩

theorem Session.moveAll_of_unhindered (hs : h.schema.Sound) (hst : Stands h.schema db t f supply)
    {held : List Nat} (hheld : h.connection ∉ held) (placement : Placement) {ids : List Int}
    (hu : h.Unhindered ⟨db, none⟩ (ids.map fun id => .move id placement)) :
    ∃ db' t' supply' events, Session.moveAll ⟨⟨db, none⟩, held⟩ h placement ids [] =
        (f.batch placement ids, ⟨⟨db', none⟩, held⟩, events) ∧
      Stands h.schema db' t' (ids.foldl (Forest.carried placement) f) supply' := by
  induction ids generalizing db t f supply with
  | nil => exact ⟨db, t, supply, [], rfl, hst⟩
  | cons id rest ih =>
    obtain ⟨hanswer, hmishaps, db₁, t₁, supply₁, hstore, hst₁⟩ :=
      Handle.edit_move_of_calls hs hst hu.1
    have hrest := hu.2
    rw [hstore] at hrest
    obtain ⟨db', t', supply', events, hmoves, hst'⟩ := ih hst₁ hrest
    have hapart : Session.edit ⟨⟨db, none⟩, held⟩ h (.move id placement) [] =
        h.edit ⟨db, none⟩ (.move id placement) := by
      simp [Session.edit, Session.isHeld, hheld]
    refine ⟨db', t', supply', (h.edit ⟨db, none⟩ (.move id placement)).events ++ events, ?_, hst'⟩
    rw [Session.moveAll, Forest.batch]
    simp only [hapart, hanswer, hmishaps, hstore, hmoves]

end

open Editing in
/-- Many nodes are moved to one place, one after another, and no statement is refused. Every one of
the moves answers what it would answer alone. The nodes that move come next to the target in the
reverse order of their last moves; before or behind them are the children that were there and did
not move. Every other node keeps its parent, and nothing is wrong with the tree. -/
theorem batch_moves_gather {h : Handle} {db : Database} {t : Table} (hs : h.schema.Sound)
    (hf : h.schema.Filed db t) (hc : h.read ⟨db, none⟩ Reading.check = .ok [])
    {held : List Nat} (hheld : h.connection ∉ held) (ids : List Int) (targetId : Int) (tie : Tie)
    (hu : h.Unhindered ⟨db, none⟩ (ids.map fun id => .move id (tie.placement targetId))) :
    ∃ (report : MoveReport) (db' : Database) (events : List Event) (nodes after : List Node),
      Session.perform ⟨⟨db, none⟩, held⟩ h (.moveAll ids (tie.placement targetId)) [] =
        (.report report, ⟨⟨db', none⟩, held⟩, events) ∧
      h.nodes ⟨db, none⟩ = .ok nodes ∧ h.nodes ⟨db', none⟩ = .ok after ∧
      report.map (·.1) = ids ∧
      (∀ x ∈ report,
        (∀ c ∈ h.calls ⟨db, none⟩ (.move x.1 (tie.placement targetId)) [], c.2 = none) →
        x.2 = (h.edit ⟨db, none⟩ (.move x.1 (tie.placement targetId))).answer) ∧
      (∀ parent, tie.Leads nodes targetId parent → childIds after parent =
        tie.gather targetId report.moved.dedup.reverse
          ((childIds nodes parent).filter fun i => decide (i ∉ report.moved))) ∧
      ((∀ parent, ¬tie.Leads nodes targetId parent) → report.moved = []) ∧
      (after.map (·.id)).Perm (nodes.map (·.id)) ∧
      (∀ n ∈ nodes, n.id ∉ report.moved → ∃ m ∈ after, m.id = n.id ∧ m.parent = n.parent) ∧
      h.read ⟨db', none⟩ Reading.check = .ok [] := by
  obtain ⟨f, hst⟩ := @Handle.exists_stands h ⟨db, none⟩ t hf hc
  have hview : ∀ db, Store.view ⟨db, none⟩ h.connection = db := fun _ => rfl
  have hstands : Stands h.schema db t f .unknown := hst
  obtain ⟨db', t', supply', events, hmoves, hst'⟩ :=
    Session.moveAll_of_unhindered hs hstands hheld (tie.placement targetId) hu
  have hnodup := hst.nodup_ids
  have hgathers : tie.Gathers targetId f (ids.foldl (Forest.carried (tie.placement targetId)) f)
      (ids.filter (tie.moves targetId f)) := Tie.gathers_foldl hnodup ids
  have hreport : f.batch (tie.placement targetId) ids = _ :=
    Tie.batch_eq hnodup hnodup (.refl targetId f) ids
  have hmoved : (f.batch (tie.placement targetId) ids).moved =
      ids.filter (tie.moves targetId f) := by
    rw [hreport, MoveReport.moved_eq_filter]
  rw [← hview db'] at hst'
  refine ⟨f.batch (tie.placement targetId) ids, db', events, f.nodes, _, ?_, hst.nodes_eq,
    hst'.nodes_eq, ?_, ?_, ?_, ?_, ?_, ?_, hst'.check_eq⟩
  · simp only [Session.perform, hmoves]
  · simp [hreport, Function.comp_def]
  · intro x hx halone
    rw [hreport, List.mem_map] at hx
    obtain ⟨id, -, rfl⟩ := hx
    exact (Handle.edit_move_of_calls hs hst halone).1.symm
  · intro parent hparent
    rw [hmoved]
    exact hgathers.children parent hparent
  · intro hnone
    rw [hmoved, List.filter_eq_nil_iff]
    intro id _ hmoves
    obtain ⟨parent, hparent⟩ := Tie.exists_leads_of_moves hnodup hmoves
    exact hnone parent hparent
  · rw [Forest.map_id_nodes, Forest.map_id_nodes]
    exact hgathers.ids
  · intro n hn hid
    rw [hmoved] at hid
    exact hgathers.exists_same_parent hnodup hn hid

/-- Six moves behind the third node. The second node moves twice, the fourth comes out from under
the third, and the root, a missing node and the third itself do not move. -/
theorem batch_moves_gather_branch :
    ∃ report session events after,
      Session.perform ⟨branchStore, []⟩ plainHandle (.moveAll [2, 9, 4, 2, 1, 3] (.after 3)) [] =
        (.report report, session, events) ∧
      report = [(2, .ok (.placed .moved)), (9, .error (.notFound 9)), (4, .ok (.placed .moved)),
        (2, .ok (.placed .moved)), (1, .error (.invalidMove .underDescendant)),
        (3, .ok (.placed .alreadyInPlace))] ∧
      plainHandle.nodes session.store = .ok after ∧ childIds after 1 = [3, 2, 4] := by
  have hs := sound_plainHandle
  obtain ⟨t, hst⟩ := stands_branch
  have hview : branchStore.view plainHandle.connection = branchStore.committed := rfl
  have hf : plainHandle.schema.Filed branchStore.committed t := by
    refine ⟨hst.keeps.found, hst.keeps.declares, ?_⟩
    cases hst.keeps.found
    decide
  have hc : plainHandle.read ⟨branchStore.committed, none⟩ Reading.check = .ok [] := by
    rw [← hview] at hst
    exact hst.check_eq
  have hu := Handle.unhindered_moves hs hst rfl
  obtain ⟨report, db', events, nodes, after, hperform, hnodes, hafter, hids, halone, hchildren,
    -⟩ := batch_moves_gather hs hf hc (List.not_mem_nil : plainHandle.connection ∉ [])
      [2, 9, 4, 2, 1, 3] 3 .nextSibling
      (hu (([2, 9, 4, 2, 1, 3] : List Int).map fun id => (id, .after 3)))
  have hreport : report = ([2, 9, 4, 2, 1, 3] : List Int).map fun id =>
      (id, (branch.transplant id (.after 3)).map fun x => .placed x.1) := by
    rw [← hids, List.map_map]
    refine (List.map_id report).symm.trans (List.map_congr_left ?_)
    intro x hx
    have hx := halone x hx (hu [(x.1, .after 3)]).1
    exact Prod.ext rfl (hx.trans (Handle.edit_move_of_stands hs hst rfl x.1 (.after 3)))
  obtain rfl : nodes = branch.nodes := by
    rw [← hview] at hst
    exact Except.ok.inj (hnodes.symm.trans hst.nodes_eq)
  refine ⟨report, _, events, after, hperform, hreport, hafter, ?_⟩
  rw [hchildren 1 ⟨⟨3, 2, 5, some 1, []⟩, by decide, rfl, rfl⟩, hreport]
  decide

end NestedSet
