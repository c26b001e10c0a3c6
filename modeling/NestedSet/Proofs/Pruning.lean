import Mathlib
import NestedSet.Proofs.Lineage

/-!
# Removals in any order

To remove nodes one after another comes to erasing all that lies in or under
one of them, whichever comes first: what is gone already is not found, and
what is removed later takes only what is left. So the rows that stay and the
number of those that go do not depend on the order.
-/

set_option autoImplicit false

namespace NestedSet

open Relation (ReflTransGen TransGen)

/-! ### What is erased -/

namespace Visit

variable {α : Type} {pick : α → Bool} {visits below behind : List (Visit α)} {first v : Visit α}

def isUnder (pick : α → Bool) (visits : List (Visit α)) (v : Visit α) : Bool :=
  visits.any fun u => pick u.label &&
    (decide (u.bounds.left ≤ v.bounds.left) && decide (v.bounds.right ≤ u.bounds.right))

theorem isUnder_eq_false (pick : α → Bool) (h : ∀ u ∈ visits, v.bounds.left < u.bounds.left ∨
    u.bounds.right < v.bounds.right) : v.isUnder pick visits = false := by
  rw [isUnder, List.any_eq_false]
  intro u hu
  have := h u hu
  simp only [Bool.and_eq_true, decide_eq_true_eq, not_and]
  omega

theorem countP_isUnder (pick : α → Bool) (hfirst : first.bounds.left < first.bounds.right)
    (hbelow : ∀ v ∈ below, first.bounds.left < v.bounds.left ∧
      v.bounds.left < v.bounds.right ∧ v.bounds.right < first.bounds.right)
    (hbehind : ∀ v ∈ behind, first.bounds.right < v.bounds.left ∧
      v.bounds.left < v.bounds.right) :
    (first :: (below ++ behind)).countP (isUnder pick (first :: (below ++ behind))) =
      (if pick first.label then below.length + 1 else below.countP (isUnder pick below)) +
        behind.countP (isUnder pick behind) := by
  have hunder : ∀ v, isUnder pick (first :: (below ++ behind)) v =
      (pick first.label && (decide (first.bounds.left ≤ v.bounds.left) &&
        decide (v.bounds.right ≤ first.bounds.right)) ||
          (v.isUnder pick below || v.isUnder pick behind)) := by
    intro v
    rw [isUnder, List.any_cons, List.any_append]
    rfl
  generalize isUnder pick (first :: (below ++ behind)) = under at hunder ⊢
  have hself : under first = pick first.label := by
    rw [hunder, isUnder_eq_false, isUnder_eq_false]
    · simp
    · exact fun u hu => .inl (by have := hbehind u hu; omega)
    · exact fun u hu => .inl (hbelow u hu).1
  have hinside : below.countP under =
      below.countP fun v => pick first.label || v.isUnder pick below := by
    refine List.countP_congr fun v hv => ?_
    have hv := hbelow v hv
    have hapart : v.isUnder pick behind = false :=
      isUnder_eq_false pick fun u hu => .inl (by have := hbehind u hu; omega)
    rw [hunder, hapart]
    simp [hv.1.le, hv.2.2.le]
  have houtside : behind.countP under = behind.countP (isUnder pick behind) := by
    refine List.countP_congr fun v hv => ?_
    have hv := hbehind v hv
    have hout : ¬v.bounds.right ≤ first.bounds.right := by omega
    have hapart : v.isUnder pick below = false :=
      isUnder_eq_false pick fun u hu => .inr (by have := hbelow u hu; omega)
    rw [hunder, hapart]
    simp [hout]
  rw [List.countP_cons, List.countP_append, hself, hinside, houtside]
  cases pick first.label with
  | true =>
    simp only [Bool.true_or, List.countP_true, if_true]
    omega
  | false =>
    simp only [Bool.false_or, Bool.false_eq_true, if_false]
    rfl

end Visit

namespace Forest

section

variable {α : Type}

theorem erase_erase (p q : α → Bool) (f : Forest α) :
    (f.erase p).erase q = f.erase fun a => p a || q a := by
  induction f with
  | nil => rfl
  | tree a children rest ihc ihr =>
    cases hp : p a with
    | true => simp [erase, hp, ihr]
    | false => cases hq : q a <;> simp [erase, hp, hq, ihc, ihr]

/-- What an erasure takes are the visits in or under one that is picked. -/
theorem size_erase_add (pick : α → Bool) (f : Forest α) (parent : Option α) (next : Int) :
    (f.erase pick).size +
      (f.walk parent next).countP (Visit.isUnder pick (f.walk parent next)) = f.size := by
  induction f generalizing parent next with
  | nil => rfl
  | tree a children rest ihc ihr =>
    have hchildren := ihc (some a) (next + 1)
    have hrest := ihr parent (next + 2 * children.size + 1 + 1)
    have hlength := length_walk children (some a) (next + 1)
    let first : Visit α := ⟨a, ⟨next, next + 2 * children.size + 1⟩, parent⟩
    have hbelow : ∀ v ∈ children.walk (some a) (next + 1), first.bounds.left < v.bounds.left ∧
        v.bounds.left < v.bounds.right ∧ v.bounds.right < first.bounds.right :=
      fun v hv => bounds_of_mem_children hv
    have hbehind : ∀ v ∈ rest.walk parent (next + 2 * children.size + 1 + 1),
        first.bounds.right < v.bounds.left ∧ v.bounds.left < v.bounds.right :=
      fun v hv => bounds_of_mem_rest hv
    have hfirst : first.bounds.left < first.bounds.right := by
      dsimp only [first]
      omega
    rw [walk, Visit.countP_isUnder pick hfirst hbelow hbehind]
    dsimp only [first]
    cases ha : pick a with
    | true =>
      simp only [erase, ha, if_true, size]
      omega
    | false =>
      simp only [erase, ha, Bool.false_eq_true, if_false, size]
      omega

end

variable {f : Forest Item} {id : Int}

theorem size_erase_treeAt? (hf : f.ids.Nodup) {subtree : Forest Item}
    (h : f.treeAt? (Item.is id) = some subtree) :
    subtree.size + (f.erase (Item.is id)).size = f.size := by
  have hid : f.has id = true := by
    by_contra hmissing
    rw [treeAt?_isNone (by simpa using hmissing)] at h
    cases h
  obtain ⟨n, hn, rfl⟩ := exists_of_has hid
  obtain ⟨children, site, -, htree, -, hg⟩ := exists_cut hf hn
  rw [Option.some.inj (h.symm.trans htree), hg.size_eq, Nat.add_comm]

theorem erase_of_treeAt? (hf : f.ids.Nodup) (h : f.treeAt? (Item.is id) = none) :
    f.erase (Item.is id) = f := by
  refine erase_eq_self ?_
  intro a ha
  by_contra hpick
  have hid : f.has id = true := List.any_eq_true.2 ⟨a, ha, by simpa using hpick⟩
  obtain ⟨n, hn, rfl⟩ := exists_of_has hid
  obtain ⟨children, site, -, htree, -⟩ := exists_cut hf hn
  cases h.symm.trans htree

end Forest

def Item.isAmong (ids : List Int) (a : Item) : Bool := ids.contains a.id

theorem Item.isAmong_cons (id : Int) (ids : List Int) :
    Item.isAmong (id :: ids) = fun a => a.is id || a.isAmong ids := by
  funext a
  rw [isAmong, List.contains_cons]
  rfl

theorem Item.isAmong_perm {ids ids' : List Int} (h : ids.Perm ids') :
    Item.isAmong ids = Item.isAmong ids' := by
  funext a
  rw [isAmong, isAmong, Bool.eq_iff_iff, List.contains_iff_mem, List.contains_iff_mem, h.mem_iff]

/-- A listed id, or one below a listed id. -/
def Condemned (nodes : List Node) (ids : List Int) (id : Int) : Prop :=
  ∃ a ∈ ids, ReflTransGen (IsParent nodes) a id

theorem Forest.condemned_iff {f : Forest Item} (hf : f.ids.Nodup) (ids : List Int)
    {v : Visit Item} (hv : v ∈ f.walk none 1) :
    Condemned f.nodes ids v.node.id ↔
      v.isUnder (Item.isAmong ids) (f.walk none 1) = true := by
  have hn : v.node ∈ f.nodes := List.mem_map_of_mem hv
  have hunder : v.isUnder (Item.isAmong ids) (f.walk none 1) = true ↔
      ∃ m ∈ f.nodes, m.id ∈ ids ∧ (m.left ≤ v.node.left ∧ v.node.right ≤ m.right) := by
    rw [Visit.isUnder, List.any_eq_true]
    simp only [nodes_eq, List.mem_map, exists_exists_and_eq_and, Item.isAmong,
      List.contains_iff_mem, Bool.and_eq_true, decide_eq_true_eq]
    rfl
  rw [hunder]
  constructor
  · rintro ⟨a, ha, hchain⟩
    obtain heq | habove := Relation.reflTransGen_iff_eq_or_transGen.1 hchain
    · exact ⟨v.node, hn, heq ▸ ha, Int.le_refl _, Int.le_refl _⟩
    · obtain ⟨c, ⟨child, hchild, -, hp⟩, -⟩ := TransGen.head'_iff.1 habove
      obtain ⟨m, hm, rfl, -⟩ := exists_parent hchild hp
      exact ⟨m, hm, ha, (around_iff hm hn).2 (.inr ((transGen_isParent_iff hf hm hn).1 habove))⟩
  · rintro ⟨m, hm, ha, haround⟩
    refine ⟨m.id, ha, ?_⟩
    rcases (around_iff hm hn).1 haround with heq | hin
    · rw [heq]
    · exact ((transGen_isParent_iff hf hm hn).2 hin).to_reflTransGen

open Classical in
theorem Forest.size_erase_add_countP {f : Forest Item} (hf : f.ids.Nodup) (ids : List Int) :
    (f.erase (Item.isAmong ids)).size +
      f.nodes.countP (fun n => decide (Condemned f.nodes ids n.id)) = f.size := by
  rw [← size_erase_add (Item.isAmong ids) f none 1]
  congr 1
  conv_lhs => rw [nodes_eq, List.countP_map]
  refine List.countP_congr fun v hv => ?_
  rw [Function.comp_apply, decide_eq_true_eq, ← nodes_eq]
  exact condemned_iff hf ids hv

/-! ### Removals through a handle -/

def Reply.removed : Reply → Nat
  | .answer (.ok (.deleted rows)) => rows
  | _ => 0

def Handle.removals (h : Handle) (xs : List (Int × Mishaps)) :
    List (Handle × Command × Mishaps) :=
  xs.map fun x => (h, .edit (.remove x.1), x.2)

def Reply.IsRemoval (id : Int) (reply : Reply) : Prop :=
  (∃ rows, reply = .answer (.ok (.deleted rows))) ∨ reply = .answer (.error (.notFound id))

namespace Session

theorem edit_remove {h : Handle} {start : Table} (hs : h.schema.Sound) {s : Session}
    {f : Forest Item} (hr : Remains h.schema start (s.store.view h.connection) f) {id : Int}
    {mishaps : Mishaps}
    (hcalm : ∀ step refusal, (s.edit h (.remove id) mishaps).answer ≠
      .error (.backend step refusal)) :
    (Reply.answer (s.edit h (.remove id) mishaps).answer).IsRemoval id ∧
      Remains h.schema start ((s.edit h (.remove id) mishaps).store.view h.connection)
        (f.erase (Item.is id)) ∧
      (Reply.answer (s.edit h (.remove id) mishaps).answer).removed +
        (f.erase (Item.is id)).size = f.size := by
  have hids := hr.nodup_ids
  obtain ⟨new, hanswer, hr'⟩ := remains_of_edit hs hr (Edit.bringsNothing_remove _ _) hcalm
  unfold Edit.grown at hr'
  simp only [Edit.onForest] at hanswer hr'
  cases htree : f.treeAt? (Item.is id) with
  | some subtree =>
    simp only [htree, Except.map] at hanswer hr'
    rw [hanswer]
    exact ⟨.inl ⟨_, rfl⟩, hr', Forest.size_erase_treeAt? hids htree⟩
  | none =>
    simp only [htree, Except.map] at hanswer hr'
    rw [hanswer, Forest.erase_of_treeAt? hids htree]
    exact ⟨.inr rfl, hr', Nat.zero_add _⟩

theorem run_removals_cons (s : Session) (h : Handle) (x : Int × Mishaps)
    (rest : List (Int × Mishaps)) :
    s.run (h.removals (x :: rest)) =
      let after : Session := { s with store := (s.edit h (.remove x.1) x.2).store }
      (.answer (s.edit h (.remove x.1) x.2).answer :: (after.run (h.removals rest)).1,
        (after.run (h.removals rest)).2) :=
  rfl

/-- Removals that are refused no statement take, between them, what erasing all of their ids
takes. -/
theorem run_removals {h : Handle} {start : Table} (hs : h.schema.Sound)
    {xs : List (Int × Mishaps)} {s : Session} {f : Forest Item}
    (hr : Remains h.schema start (s.store.view h.connection) f)
    (hcalm : ∀ step refusal,
      .answer (.error (.backend step refusal)) ∉ (s.run (h.removals xs)).1) :
    xs.Forall₂ (fun x reply => reply.IsRemoval x.1) (s.run (h.removals xs)).1 ∧
      Remains h.schema start ((s.run (h.removals xs)).2.store.view h.connection)
        (f.erase (Item.isAmong (xs.map (·.1)))) ∧
      ((s.run (h.removals xs)).1.map Reply.removed).sum +
        (f.erase (Item.isAmong (xs.map (·.1)))).size = f.size := by
  induction xs generalizing s f with
  | nil =>
    have hnone : f.erase (Item.isAmong []) = f := Forest.erase_eq_self fun _ _ => rfl
    refine ⟨.nil, ?_⟩
    simp only [List.map_nil, hnone]
    exact ⟨hr, Nat.zero_add _⟩
  | cons x rest ih =>
    obtain ⟨id, mishaps⟩ := x
    rw [run_removals_cons] at hcalm ⊢
    simp only [List.mem_cons, not_or] at hcalm
    obtain ⟨hreply, hr', hsize⟩ := edit_remove hs hr fun step refusal herror =>
      (hcalm step refusal).1 (congrArg Reply.answer herror.symm)
    obtain ⟨hreplies, hlast, hsum⟩ :=
      ih (s := { s with store := (s.edit h (.remove id) mishaps).store }) hr' fun step refusal =>
        (hcalm step refusal).2
    rw [Forest.erase_erase, ← Item.isAmong_cons] at hlast hsum
    refine ⟨.cons hreply hreplies, hlast, ?_⟩
    simp only [List.map_cons, List.sum_cons]
    omega

theorem not_mem_run_removals {h : Handle} {store : Store} {held : List Nat}
    (hheld : h.connection ∉ held) {ids : List Int}
    (hu : h.Unhindered store (ids.map .remove)) (step : Step) (refusal : Refusal) :
    .answer (.error (.backend step refusal)) ∉
      (run ⟨store, held⟩ (h.removals (ids.map fun id => (id, [])))).1 := by
  induction ids generalizing store with
  | nil => exact List.not_mem_nil
  | cons id rest ih =>
    have hown : edit ⟨store, held⟩ h (.remove id) [] = h.edit store (.remove id) := by
      simp [edit, isHeld, hheld]
    rw [List.map_cons, run_removals_cons]
    simp only [hown, List.mem_cons, not_or]
    refine ⟨?_, ih hu.2⟩
    intro hrefused
    obtain ⟨call, hcall, -⟩ := Handle.exists_mem_calls (Reply.answer.inj hrefused).symm
    cases hu.1 _ hcall

end Session

open Classical in
/-- Where nothing is wrong with a tree, ids are removed one after another, in two orders. Unless a
statement is refused, each removal takes nodes or does not find its id. The numbers of nodes taken
sum to that of the nodes that have a listed id themselves or above them, and the same table is left
in both orders. -/
theorem removals_commute {h : Handle} {s : Session} {t : Table} (hs : h.schema.Sound)
    (hf : h.schema.Filed (s.store.view h.connection) t)
    (hc : h.read s.store Reading.check = .ok []) {nodes : List Node}
    (hnodes : h.nodes s.store = .ok nodes) {xs ys : List (Int × Mishaps)}
    (hperm : (xs.map (·.1)).Perm (ys.map (·.1)))
    (hcalm : ∀ zs ∈ [xs, ys], ∀ step refusal,
      .answer (.error (.backend step refusal)) ∉ (s.run (h.removals zs)).1) :
    (∀ zs ∈ [xs, ys],
      zs.Forall₂ (fun x reply => reply.IsRemoval x.1) (s.run (h.removals zs)).1 ∧
        ((s.run (h.removals zs)).1.map Reply.removed).sum =
          nodes.countP fun n => decide (Condemned nodes (xs.map (·.1)) n.id)) ∧
      ∃ t', ∀ zs ∈ [xs, ys],
        ((s.run (h.removals zs)).2.store.view h.connection).table? h.schema.table = some t' := by
  obtain ⟨hstart, f, hr⟩ := Handle.exists_remains hf hc
  obtain rfl := Except.ok.inj (hr.nodes_eq.symm.trans hnodes)
  have hcount := Forest.size_erase_add_countP hr.nodup_ids (xs.map (·.1))
  obtain ⟨hreplies, hlast, hsum⟩ := Session.run_removals hs hr (hcalm xs (by simp))
  obtain ⟨hreplies', hlast', hsum'⟩ := Session.run_removals hs hr (hcalm ys (by simp))
  rw [← Item.isAmong_perm hperm] at hlast' hsum'
  have hsame := hlast.table?_eq hs hstart hlast' rfl
  obtain ⟨t', supply, -, hst⟩ := hlast
  simp only [List.forall_mem_cons, List.not_mem_nil, false_imp_iff, implies_true, and_true]
  refine ⟨⟨⟨hreplies, by omega⟩, hreplies', by omega⟩, _, hst.keeps.found, ?_⟩
  rw [← hsame, hst.keeps.found]

/-- A node goes before or after its parent, one is not there, and one is listed twice: both times
three nodes go. -/
theorem removals_commute_branch :
    ∃ t', ∀ ids ∈ ([[4, 3, 9, 2, 3], [3, 2, 3, 9, 4]] : List (List Int)),
      ((Session.run ⟨branchStore, []⟩ (plainHandle.removals (ids.map fun id => (id, [])))).1.map
        Reply.removed).sum = 3 ∧
      ((Session.run ⟨branchStore, []⟩
        (plainHandle.removals (ids.map fun id => (id, [])))).2.store.view 0).table? ⟨"t"⟩ =
          some t' := by
  have hs := sound_plainHandle
  obtain ⟨t, hst, hf⟩ := filed_branch
  have hcalm : ∀ (ids : List Int) step refusal, .answer (.error (.backend step refusal)) ∉
      (Session.run ⟨branchStore, []⟩ (plainHandle.removals (ids.map fun id => (id, [])))).1 := by
    intro ids
    refine Session.not_mem_run_removals (List.not_mem_nil) ?_
    exact Handle.unhindered_of_bringsNothing hs hst rfl
      (List.forall_mem_map.2 fun id _ => Edit.bringsNothing_remove _ id)
  have hview : branchStore.view plainHandle.connection = branchStore.committed := rfl
  rw [← hview] at hst
  let removals : List Int → List (Int × Mishaps) := List.map fun id => (id, [])
  have hperm : ((removals [4, 3, 9, 2, 3]).map (·.1)).Perm
      ((removals [3, 2, 3, 9, 4]).map (·.1)) := by
    decide
  obtain ⟨hreplies, t', htable⟩ := removals_commute hs hf hst.check_eq hst.nodes_eq hperm (by
    simp only [List.forall_mem_cons, List.not_mem_nil, false_imp_iff, implies_true, and_true]
    exact ⟨hcalm _, hcalm _⟩)
  have hleft : (branch.erase (Item.isAmong [4, 3, 9, 2, 3])).size = 1 := by decide
  have hall : branch.size = 4 := by decide
  have hcount := Forest.size_erase_add_countP (f := branch) (by decide) [4, 3, 9, 2, 3]
  rw [hleft, hall] at hcount
  have hthree := Nat.add_left_cancel (hcount.trans (by rfl : 4 = 1 + 3))
  simp only [List.forall_mem_cons, List.not_mem_nil, false_imp_iff, implies_true, and_true]
    at hreplies htable ⊢
  exact ⟨t', ⟨hreplies.1.2.trans hthree, htable.1⟩, hreplies.2.2.trans hthree, htable.2⟩

end NestedSet
