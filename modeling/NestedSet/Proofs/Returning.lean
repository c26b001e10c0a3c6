import Mathlib
import NestedSet.Proofs.Adjacency
import NestedSet.Proofs.Lineage
import NestedSet.Proofs.Siblings

/-!
# Moves that take moves back

Where a node was is told by the sibling before it, or else by its parent. The
marker of either that it goes behind is the one right before its own, and
stays right behind where the node was. So a move back there carries every
marker to where it came from.
-/

set_option autoImplicit false

namespace NestedSet

open Relation (TransGen)

def home (nodes : List Node) (parent id : Int) : Placement :=
  match ((childIds nodes parent).takeWhile fun i => decide (i ≠ id)).getLast? with
  | some sibling => .after sibling
  | none => .firstChildOf parent

/-! ### Markers that are carried back -/

namespace Bounds

variable {node : Bounds} {pivot : Int}

theorem rotated_down (hn : node.left < node.right) (h : pivot < node.left - 1) :
    node.rotated pivot node.left = pivot + 1 ∧
      node.rotated pivot node.right = pivot + node.right - node.left + 1 ∧
      node.rotated pivot (node.left - 1) = node.right := by
  have hdown : ¬node.right < pivot := by omega
  simp only [rotated, if_neg hdown, span]
  refine ⟨?_, ?_, ?_⟩ <;> split_ifs <;> omega

theorem rotated_up (hn : node.left < node.right) (h : node.right < pivot) :
    node.rotated pivot node.left = pivot + node.left - node.right ∧
      node.rotated pivot node.right = pivot ∧
      node.rotated pivot (node.left - 1) = node.left - 1 := by
  simp only [rotated, if_pos h, span]
  refine ⟨?_, ?_, ?_⟩ <;> split_ifs <;> omega

theorem rotated_back (hn : node.left < node.right) (hp : pivot < node.left ∨ node.right < pivot)
    (marker : Int) :
    rotated ⟨node.rotated pivot node.left, node.rotated pivot node.right⟩
      (node.rotated pivot (node.left - 1)) (node.rotated pivot marker) = marker := by
  rcases hp with hp | hp
  · by_cases hself : pivot = node.left - 1
    · simp only [rotated_self hn.le hself]
      exact rotated_self hn.le rfl marker
    · obtain ⟨hleft, hright, hbefore⟩ := rotated_down hn (by omega : pivot < node.left - 1)
      have hup : pivot + node.right - node.left + 1 < node.right := by omega
      have hdown : ¬node.right < pivot := by omega
      rw [hleft, hright, hbefore]
      simp only [rotated, if_pos hup, if_neg hdown, span]
      split_ifs <;> omega
  · obtain ⟨hleft, hright, hbefore⟩ := rotated_up hn hp
    have hdown : ¬pivot < node.left - 1 := by omega
    rw [hleft, hright, hbefore]
    simp only [rotated, if_pos hp, if_neg hdown, span]
    split_ifs <;> omega

end Bounds

/-! ### Where a node is among its siblings -/

namespace Forest

variable {f : Forest Item} {node m u : Node}

theorem exists_split_children (hf : f.ids.Nodup) (hn : node ∈ f.nodes) {parent : Int}
    (hp : node.parent = some parent) :
    ∃ pre post : List Node,
      childIds f.nodes parent = pre.map (·.id) ++ node.id :: post.map (·.id) ∧
      node.id ∉ pre.map (·.id) ∧ pre.Pairwise (fun a b => a.left < b.left) ∧
      ∀ m, m ∈ pre ↔ m ∈ f.nodes ∧ m.parent = some parent ∧ m.left < node.left := by
  have hmem : node ∈ f.nodes.filter fun n => decide (n.parent = some parent) := by
    simp [hn, hp]
  obtain ⟨pre, post, hsplit⟩ := List.append_of_mem hmem
  have hsorted : (pre ++ node :: post).Pairwise fun a b => a.left < b.left := by
    rw [← hsplit]
    exact f.pairwise_left_nodes.filter _
  obtain ⟨hpre, hpost, hbefore⟩ := List.pairwise_append.1 hsorted
  have hids : childIds f.nodes parent = pre.map (·.id) ++ node.id :: post.map (·.id) := by
    rw [childIds, hsplit, List.map_append, List.map_cons]
  refine ⟨pre, post, hids, ?_, hpre, ?_⟩
  · have hnodup : (childIds f.nodes parent).Nodup := by
      refine (List.filter_sublist.map _).nodup ?_
      rwa [map_id_nodes]
    rw [hids, List.nodup_append] at hnodup
    exact fun hmem => hnodup.2.2 _ hmem _ List.mem_cons_self rfl
  · intro m
    have hchild : m ∈ pre ++ node :: post ↔ m ∈ f.nodes ∧ m.parent = some parent := by
      rw [← hsplit, List.mem_filter, decide_eq_true_eq]
    rw [← and_assoc, ← hchild, List.mem_append, List.mem_cons]
    constructor
    · exact fun hm => ⟨.inl hm, hbefore m hm node List.mem_cons_self⟩
    · rintro ⟨hm | rfl | hm, hlt⟩
      · exact hm
      · exact absurd hlt (Int.lt_irrefl _)
      · exact absurd hlt ((List.pairwise_cons.1 hpost).1 m hm).not_gt

theorem getLast?_of_right (hf : f.ids.Nodup) (hm : m ∈ f.nodes) (hu : u ∈ f.nodes)
    (hp : m.parent = some u.id) {k : Int} (hk : m.right = k - 1) {pre : List Node}
    (hsorted : pre.Pairwise fun a b => a.left < b.left)
    (hpre : ∀ n, n ∈ pre ↔ n ∈ f.nodes ∧ n.parent = some u.id ∧ n.left < k) :
    pre.getLast? = some m := by
  have hm' := (bounds_of_mem_nodes hm).2
  obtain ⟨before, behind, rfl⟩ := List.append_of_mem ((hpre m).2 ⟨hm, hp, by omega⟩)
  -- a child behind it would begin behind its end
  have hnone : behind = [] := by
    rw [List.eq_nil_iff_forall_not_mem]
    intro n hmem
    obtain ⟨hn, hnp, hlt⟩ := (hpre n).1 (by simp [hmem])
    have hmn := (List.pairwise_cons.1 (List.pairwise_append.1 hsorted).2.1).1 n hmem
    have hbehind := right_lt_left_of_parent hf hm hn hu hp hnp hmn
    omega
  rw [hnone, List.getLast?_append]
  rfl

end Forest

namespace Editing

variable {f g : Forest Item} {tie : Tie} {node target : Node} {parent : Int}

/-- The home of a child is a place next to a target outside of it, whose marker comes right before
the child's. -/
theorem exists_tie_home (hf : f.ids.Nodup) (hn : node ∈ f.nodes)
    (hp : node.parent = some parent) :
    ∃ tie : Tie, ∃ target ∈ f.nodes, home f.nodes parent node.id = tie.placement target.id ∧
      tie.parent? target = some parent ∧
      (tie.anchor target.bounds).pivot = node.left - 1 ∧ target.id ≠ node.id ∧
      ¬TransGen (IsParent f.nodes) node.id target.id := by
  obtain ⟨u, hu, rfl, hun, -⟩ := Forest.exists_parent hn hp
  obtain ⟨pre, post, hids, hfresh, hsorted, hpre⟩ := Forest.exists_split_children hf hn hp
  have htake : (childIds f.nodes u.id).takeWhile (fun i => decide (i ≠ node.id)) =
      pre.map (·.id) := by
    rw [hids, List.takeWhile_append_of_pos, List.takeWhile_cons_of_neg (by simp), List.append_nil]
    intro i hi
    simpa using fun he : i = node.id => hfresh (he ▸ hi)
  have hin := Bounds.contains_iff.1 hun
  have hn' := (Forest.bounds_of_mem_nodes hn).2
  simp only [Node.bounds] at hin
  have houtside : ∀ {t : Node}, t ∈ f.nodes → t.left < node.left → t.id ≠ node.id ∧
      ¬TransGen (IsParent f.nodes) node.id t.id := by
    intro t ht hlt
    constructor
    · intro hid
      rw [Forest.eq_of_mem_nodes hf ht hn hid] at hlt
      exact Int.lt_irrefl _ hlt
    · rw [Forest.transGen_isParent_iff hf hn ht, Bounds.contains_iff]
      simp only [Node.bounds]
      omega
  unfold home
  rw [htake, List.getLast?_map]
  obtain ⟨m, hm, hleft | hright⟩ := Forest.exists_holder hu (k := node.left - 1)
    (by omega) (by omega)
  · have hparent := Forest.parent_of_left_succ hn hm (by omega)
    obtain rfl : m = u :=
      Forest.eq_of_mem_nodes hf hm hu (Option.some.inj (hparent.symm.trans hp))
    have hnone : pre = [] := by
      rw [List.eq_nil_iff_forall_not_mem]
      intro c hc
      obtain ⟨hc, hcp, hlt⟩ := (hpre c).1 hc
      have := (Bounds.contains_iff.1 (Forest.contains_of_parent hf hc hm hcp).1).1
      simp only [Node.bounds] at this
      omega
    rw [hnone]
    exact ⟨.firstChild, m, hm, rfl, rfl, hleft, houtside hm (by omega)⟩
  · have hm' := (Forest.bounds_of_mem_nodes hm).2
    have hparent := (Forest.parent_of_left_succ_right hn hm (by omega)).symm.trans hp
    rw [Forest.getLast?_of_right hf hm hu hparent hright hsorted hpre]
    exact ⟨.nextSibling, m, hm, rfl, hparent, hright, houtside hm (by omega)⟩

theorem Tie.exists_transplant (hf : f.ids.Nodup) (hn : node ∈ f.nodes) (ht : target ∈ f.nodes)
    (hne : target.id ≠ node.id) (hout : ¬TransGen (IsParent f.nodes) node.id target.id)
    (hp : tie.parent? target = some parent) :
    ∃ g, f.transplant node.id (tie.placement target.id) = .ok (.moved, g) := by
  obtain ⟨subtree, htree, hhas⟩ := treeAt?_has_iff hf hn ht hne
  have hcut : f.cutting node.id target.id = .ok subtree := by
    rw [Forest.cutting, if_pos (Forest.has_of_mem_nodes ht), htree]
    simp only [mt hhas.1 hout]
    rfl
  have hinner : ¬(tie = .nextSibling ∧ f.isOutermost target.id = true) := by
    rintro ⟨rfl, houter⟩
    rw [Forest.isOutermost_of_mem_nodes hf ht, Option.isNone_iff_eq_none] at houter
    cases houter.symm.trans hp
  refine ⟨tie.insert target.id subtree (f.erase (Item.is node.id)), ?_⟩
  rw [tie.transplant_eq hne, hcut]
  exact if_neg hinner

/-- A node that was moved can be moved home, and then all nodes are what they were. -/
theorem exists_transplant_home (hf : f.ids.Nodup) (hn : node ∈ f.nodes)
    (hp : node.parent = some parent) {placement : Placement}
    (h : f.transplant node.id placement = .ok (.moved, g)) :
    ∃ g', g.transplant node.id (home f.nodes parent node.id) = .ok (.moved, g') ∧
      g'.nodes = f.nodes := by
  obtain ⟨tie, away, rfl⟩ : ∃ (tie : Tie) (away : Int), placement = tie.placement away := by
    cases placement with
    | root => cases h
    | firstChildOf away => exact ⟨.firstChild, away, rfl⟩
    | after away => exact ⟨.nextSibling, away, rfl⟩
  obtain ⟨node', hn', target', -, parent', hid, -, -, hpivot, hperm⟩ :=
    Tie.exists_of_transplant hf h
  obtain rfl := Forest.eq_of_mem_nodes hf hn' hn hid
  generalize (tie.anchor target'.bounds).pivot = pivot at hpivot hperm
  have hbounds := (Forest.bounds_of_mem_nodes hn).2
  have hg : g.ids.Nodup := (Forest.ids_rotated hperm).nodup_iff.2 hf
  have hmem : ∀ m ∈ f.nodes, node'.rotated parent' pivot m ∈ g.nodes :=
    fun m hm => hperm.mem_iff.2 (List.mem_map_of_mem hm)
  obtain ⟨back, target, ht, hhome, htarget, hbefore, hne, hout⟩ := exists_tie_home hf hn hp
  have hkept : (node'.rotated parent' pivot target).parent = target.parent := if_neg hne
  have hparent : back.parent? (node'.rotated parent' pivot target) = some parent := by
    cases back with
    | firstChild => exact htarget
    | nextSibling => exact hkept.trans htarget
  obtain ⟨g', hg'⟩ := back.exists_transplant hg (hmem _ hn) (hmem _ ht) hne
    (mt (Forest.transGen_rotated hn hperm hne hout _).1 hout) hparent
  rw [hhome]
  refine ⟨g', hg', ?_⟩
  obtain ⟨moved, hmoved, goal, hgoal, parent'', hid', hid'', -, -, hperm'⟩ :=
    Tie.exists_of_transplant hg hg'
  obtain rfl := Forest.eq_of_mem_nodes hg hmoved (hmem _ hn) hid'
  obtain rfl := Forest.eq_of_mem_nodes hg hgoal (hmem _ ht) hid''
  have hpivot' : (back.anchor (node'.rotated parent' pivot target).bounds).pivot =
      node'.bounds.rotated pivot (node'.left - 1) := by
    rw [← hbefore]
    cases back <;> rfl
  rw [hpivot'] at hperm'
  refine Forest.nodes_eq_of_bounds (e := fun m => (node'.rotated parent' pivot node').rotated
    parent'' (node'.bounds.rotated pivot (node'.left - 1)) (node'.rotated parent' pivot m)) ?_ ?_
  · intro m _
    exact ⟨rfl, congrArg₂ Bounds.mk (Bounds.rotated_back hbounds hpivot _)
      (Bounds.rotated_back hbounds hpivot _), rfl⟩
  · have hboth := hperm'.trans (hperm.map _)
    rwa [List.map_map] at hboth

end Editing

/-! ### Handles -/

theorem Edit.transplant_of_answer {s : Schema} {new : Int} {f : Forest Item} {id : Int}
    {placement : Placement} {outcome : MoveOutcome}
    (h : .ok (.placed outcome) = ((move id placement).onForest s new f).map (·.1)) :
    f.transplant id placement = .ok (outcome, (move id placement).grown s new f) := by
  unfold grown
  simp only [onForest] at h ⊢
  cases htrans : f.transplant id placement with
  | error e =>
    rw [htrans] at h
    cases h
  | ok x =>
    rw [htrans] at h
    cases h
    rfl

/-- Where nothing is wrong with a tree and a move of a node is carried out, the move of that node
to where it was is carried out as well, unless a statement is refused, and leaves the table as it
was before both. -/
theorem moves_are_reversible {h : Handle} {s : Session} {t : Table} (hs : h.schema.Sound)
    (hf : h.schema.Filed (s.store.view h.connection) t)
    (hc : h.read s.store Reading.check = .ok []) {nodes : List Node}
    (hnodes : h.nodes s.store = .ok nodes) {id parent : Int} (hx : IsParent nodes parent id)
    (placement : Placement) (mishaps fate : Mishaps) {there : Session}
    (hmoved : (s.edit h (.move id placement) mishaps).answer = .ok (.placed .moved))
    (hthere : there = { s with store := (s.edit h (.move id placement) mishaps).store })
    (hcalm : ∀ step refusal, (there.edit h (.move id (home nodes parent id)) fate).answer ≠
      .error (.backend step refusal)) :
    (there.edit h (.move id (home nodes parent id)) fate).answer = .ok (.placed .moved) ∧
      ((there.edit h (.move id (home nodes parent id)) fate).store.view h.connection).table?
        h.schema.table = some t := by
  obtain ⟨hstart, f, hr⟩ := Handle.exists_remains hf hc
  obtain rfl := Except.ok.inj (hr.nodes_eq.symm.trans hnodes)
  obtain ⟨node, hn, rfl, hp⟩ := hx
  have hcalm₀ : ∀ step refusal, (s.edit h (.move node.id placement) mishaps).answer ≠
      .error (.backend step refusal) := by
    rw [hmoved]
    rintro step refusal ⟨⟩
  obtain ⟨new, hanswer, hr₁⟩ :=
    Session.remains_of_edit hs hr (Edit.bringsNothing_move _ _ _) hcalm₀
  rw [hmoved] at hanswer
  obtain ⟨g', hback, hsame⟩ :=
    Editing.exists_transplant_home hr.nodup_ids hn hp (Edit.transplant_of_answer hanswer)
  have hview : (s.edit h (.move node.id placement) mishaps).store = there.store := by
    rw [hthere]
  rw [hview] at hr₁
  obtain ⟨new', hanswer', hr₂⟩ :=
    Session.remains_of_edit hs hr₁ (Edit.bringsNothing_move _ _ _) hcalm
  have hplaced : (there.edit h (.move node.id (home f.nodes parent node.id)) fate).answer =
      .ok (.placed .moved) := by
    rw [hanswer', Edit.onForest, hback]
    rfl
  rw [hplaced] at hanswer'
  refine ⟨hplaced, ?_⟩
  rw [Edit.transplant_of_answer hanswer'] at hback
  cases hback
  rw [hr₂.table?_eq hs hstart hr hsame, hf.found]

/-- The second node goes below the fourth, which is inside the third, and comes back to behind the
third, whose range had become wider. -/
theorem moves_are_reversible_branch :
    let there : Session :=
      ⟨(Session.edit ⟨branchStore, []⟩ plainHandle (.move 2 (.firstChildOf 4)) []).store, []⟩
    (Session.edit ⟨branchStore, []⟩ plainHandle (.move 2 (.firstChildOf 4)) []).answer =
        .ok (.placed .moved) ∧
      home branch.nodes 1 2 = .after 3 ∧
      (there.edit plainHandle (.move 2 (.after 3)) []).answer = .ok (.placed .moved) ∧
      ((there.edit plainHandle (.move 2 (.after 3)) []).store.view 0).table? ⟨"t"⟩ =
        branchStore.committed.table? ⟨"t"⟩ := by
  intro there
  have hs := sound_plainHandle
  obtain ⟨t, hst, hf⟩ := filed_branch
  have hmoved : (Session.edit ⟨branchStore, []⟩ plainHandle (.move 2 (.firstChildOf 4)) []).answer =
      .ok (.placed .moved) := Handle.edit_move_of_stands hs hst rfl 2 (.firstChildOf 4)
  have hview : branchStore.view plainHandle.connection = branchStore.committed := rfl
  have hu := Handle.unhindered_moves hs hst rfl [(2, .firstChildOf 4), (2, .after 3)]
  have hcalm : ∀ step refusal, (there.edit plainHandle (.move 2 (.after 3)) []).answer ≠
      .error (.backend step refusal) := by
    intro step refusal hrefused
    obtain ⟨call, hcall, -⟩ := Handle.exists_mem_calls
      (show (plainHandle.edit there.store (.move 2 (.after 3)) []).answer = _ from hrefused)
    cases hu.2.1 _ hcall
  rw [← hview] at hst
  have hhome : home branch.nodes 1 2 = .after 3 := by decide
  have hback := moves_are_reversible hs hf hst.check_eq hst.nodes_eq
    (⟨⟨2, 6, 7, some 1, []⟩, by decide, rfl, rfl⟩ : IsParent branch.nodes 1 2) (.firstChildOf 4) []
    [] hmoved rfl (by rwa [hhome])
  rw [hhome] at hback
  exact ⟨hmoved, hhome, hback.1, hback.2.trans hf.found.symm⟩

end NestedSet
