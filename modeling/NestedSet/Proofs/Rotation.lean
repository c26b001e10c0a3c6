import Mathlib
import NestedSet.Proofs.Ancestry
import NestedSet.Proofs.Granting

/-!
# A move rotates the markers

A move carries the block of markers of a subtree past the markers between its
old place and its new one, which give way by the width of the block. All other
markers stay. So six statements that update markers come to one rotation, and
moving a subtree to where it already is changes nothing.
-/

set_option autoImplicit false

namespace NestedSet

/-! ### Rotating markers -/

namespace Bounds

/-- Where a marker goes when the block of a node's markers is carried right behind the pivot. -/
def rotated (node : Bounds) (pivot marker : Int) : Int :=
  if node.right < pivot then
    if node.left ≤ marker ∧ marker ≤ node.right then marker + (pivot - node.right)
    else if node.right < marker ∧ marker ≤ pivot then marker - node.span
    else marker
  else
    if node.left ≤ marker ∧ marker ≤ node.right then marker - (node.left - 1 - pivot)
    else if pivot < marker ∧ marker < node.left then marker + node.span
    else marker

theorem rotated_inside {left width pivot marker : Int} (hl : left ≤ marker)
    (hr : marker ≤ left + width - 1) :
    rotated ⟨left, left + width - 1⟩ (raised (left - 1) width pivot) marker =
      marker + (pivot + 1 - left) := by
  simp only [rotated, raised]
  split_ifs <;> omega

theorem rotated_outside {left width pivot : Int} (hw : 0 < width) (marker : Int) :
    rotated ⟨left, left + width - 1⟩ (raised (left - 1) width pivot)
      (raised (left - 1) width marker) = raised pivot width marker := by
  simp only [rotated, raised, span]
  split_ifs <;> omega

theorem rotated_self {node : Bounds} {pivot : Int} (hn : node.left ≤ node.right)
    (hp : pivot = node.left - 1) (marker : Int) : node.rotated pivot marker = marker := by
  simp only [rotated]
  split_ifs <;> omega

end Bounds

def Node.rotated (node : Node) (parent pivot : Int) (n : Node) : Node :=
  { n with
    left := node.bounds.rotated pivot n.left
    right := node.bounds.rotated pivot n.right
    parent := if n.id = node.id then some parent else n.parent }

/-! ### Trees -/

namespace Forest

variable {f subtree : Forest Item} {id targetId : Int}

theorem exists_of_has (h : f.has id = true) : ∃ n ∈ f.nodes, n.id = id := by
  rw [has_iff, ← map_id_nodes] at h
  exact List.mem_map.1 h

theorem exists_of_cutting (h : f.cutting id targetId = .ok subtree) :
    ∃ target ∈ f.nodes, target.id = targetId ∧ ∃ node ∈ f.nodes, node.id = id ∧
      f.treeAt? (Item.is id) = some subtree ∧ subtree.has targetId = false := by
  unfold cutting at h
  split at h
  next htarget =>
    split at h
    next tree htree =>
      split at h
      · cases h
      next hhas =>
        cases h
        obtain ⟨target, ht, rfl⟩ := exists_of_has htarget
        have hid : f.has id = true := by
          by_contra hmissing
          rw [treeAt?_isNone (by simpa using hmissing)] at htree
          cases htree
        obtain ⟨node, hn, rfl⟩ := exists_of_has hid
        exact ⟨target, ht, rfl, node, hn, rfl, htree, by simpa using hhas⟩
    next => cases h
  next => cases h

/-- The recorded parents are known from the intervals: a change that leaves the intervals and what
the nodes are of themselves, and makes nodes of a forest again, changes nothing. -/
theorem nodes_eq_of_bounds {g : Forest Item} {e : Node → Node}
    (he : ∀ n ∈ f.nodes, (e n).id = n.id ∧ (e n).bounds = n.bounds ∧ (e n).payload = n.payload)
    (h : g.nodes.Perm (f.nodes.map e)) : g.nodes = f.nodes := by
  have hmem : ∀ n ∈ f.nodes, e n ∈ g.nodes := fun n hn => h.mem_iff.2 (List.mem_map_of_mem hn)
  have hback : ∀ m ∈ g.nodes, ∃ n ∈ f.nodes, e n = m := fun m hm => List.mem_map.1 (h.mem_iff.1 hm)
  have hsame : ∀ n ∈ f.nodes, e n = n := by
    intro n hn
    have hparent : (e n).parent = n.parent := by
      obtain ⟨hnone, houter⟩ | ⟨u, hu, hparent, hun, hinner⟩ := enclosed_nodes hn <;>
        obtain ⟨hnone', houter'⟩ | ⟨u', hu', hparent', hun', hinner'⟩ :=
          enclosed_nodes (hmem n hn)
      · rw [hnone, hnone']
      · obtain ⟨m, hm, rfl⟩ := hback u' hu'
        rw [(he m hm).2.1, (he n hn).2.1] at hun'
        exact absurd hun' (houter m hm)
      · refine absurd ?_ (houter' (e u) (hmem u hu))
        rwa [(he u hu).2.1, (he n hn).2.1]
      · obtain ⟨m, hm, rfl⟩ := hback u' hu'
        rw [(he m hm).2.1, (he n hn).2.1] at hun'
        -- each of the two innermost nodes is around the other or is the other
        have hinside := hinner m hm hun'
        have houtside := hinner' (e u) (hmem u hu) (by rwa [(he u hu).2.1, (he n hn).2.1])
        have hmu : m.id = u.id := by
          rcases hinside with rfl | hmu
          · rfl
          · rcases houtside with heq | hum
            · rw [← (he m hm).1, ← heq, (he u hu).1]
            · rw [(he m hm).2.1, (he u hu).2.1] at hum
              have hloop := Bounds.contains_trans hmu hum
              rw [Bounds.contains_irrefl] at hloop
              cases hloop
        rw [hparent, hparent', (he m hm).1, hmu]
    obtain ⟨hid, hbounds, hpayload⟩ := he n hn
    obtain ⟨hleft, hright⟩ := Bounds.mk.inj hbounds
    rcases hen : e n with ⟨id, left, right, parent, payload⟩
    simp_all
  rw [List.map_congr_left hsame, List.map_id'] at h
  exact eq_of_mem_iff g.pairwise_left_nodes f.pairwise_left_nodes fun n => h.mem_iff

end Forest

namespace Editing

variable {f g subtree : Forest Item} {node target : Node} {tie : Tie} {parent : Int}

theorem Tie.pivot_outside (tie : Tie) (hn : node ∈ f.nodes) (ht : target ∈ f.nodes)
    (hne : target.id ≠ node.id) (hout : node.bounds.contains target.bounds = false) :
    (tie.anchor target.bounds).pivot < node.left ∨
      node.right < (tie.anchor target.bounds).pivot := by
  obtain hin | ⟨hleft, hright⟩ := Forest.inside_or_apart hn ht
  · obtain rfl | hin := (Forest.around_iff hn ht).1 hin
    · exact absurd rfl hne
    · rw [hout] at hin
      cases hin
  · cases tie with
    | firstChild => exact hleft
    | nextSibling => exact hright

/-- The pivot of a move lies outside of the subtree that moves, and the statements of the move
rotate the markers of every node. -/
theorem Tie.relocated_eq_rotated (hf : f.ids.Nodup) (hn : node ∈ f.nodes) (ht : target ∈ f.nodes)
    (hne : target.id ≠ node.id) (htree : f.treeAt? (Item.is node.id) = some subtree)
    (hout : subtree.has target.id = false) :
    ((tie.anchor target.bounds).pivot < node.left ∨
      node.right < (tie.anchor target.bounds).pivot) ∧
    ∀ n ∈ f.nodes, Node.relocated node.id parent node.bounds (tie.anchor target.bounds).pivot n =
      node.rotated parent (tie.anchor target.bounds).pivot n := by
  obtain ⟨children, site, -, htree', hr, hg⟩ := Forest.exists_cut hf hn
  obtain rfl := Option.some.inj (htree.symm.trans htree')
  obtain ⟨-, hhas⟩ | ⟨hnot, -, t, -, rfl⟩ := target_inside_or_outside hf hg hr ht hne
  · rw [hout] at hhas
    cases hhas
  refine ⟨tie.pivot_outside hn ht hne hnot, ?_⟩
  generalize hw : 2 * ((Forest.tree ⟨node.id, node.payload⟩ children .nil).size : Int) = width at *
  have hpos : 0 < width := by
    simp only [Forest.size] at hw
    omega
  have hbounds : node.bounds = ⟨node.left, node.left + width - 1⟩ := by
    rw [Node.bounds, hr]
  have hpivot : (tie.anchor (t.onBounds (Bounds.pushed (node.left - 1) width)).bounds).pivot =
      raised (node.left - 1) width (tie.anchor t.bounds).pivot := tie.pivot_pushed _ _ _
  rw [hpivot]
  intro n hmem
  have hmoved : node.bounds.moved (raised (node.left - 1) width (tie.anchor t.bounds).pivot)
      n.bounds = ⟨node.bounds.rotated (raised (node.left - 1) width (tie.anchor t.bounds).pivot)
        n.left, node.bounds.rotated (raised (node.left - 1) width (tie.anchor t.bounds).pivot)
        n.right⟩ := by
    rw [hbounds]
    rcases List.mem_append.1 (hg.perm_nodes.mem_iff.1 hmem) with hinside | hrest
    · obtain ⟨v, hv, rfl⟩ := List.mem_map.1 hinside
      have hb := Forest.bounds_of_mem_walk hv
      simp only [Forest.walkEnd, hw] at hb
      rw [Bounds.moved_inside (b := v.node.bounds) hb.1 hb.2.1
        (by simp only [Node.bounds, Visit.node]; omega),
        Bounds.rotated_inside (by simp only [Visit.node]; omega)
          (by simp only [Visit.node]; omega),
        Bounds.rotated_inside (by simp only [Visit.node]; omega)
          (by simp only [Visit.node]; omega)]
      rfl
    · obtain ⟨m, hm, rfl⟩ := List.mem_map.1 hrest
      rw [hw]
      have hout := @Bounds.moved_outside node.left width (tie.anchor t.bounds).pivot m.bounds hpos
        (Forest.bounds_of_mem_nodes hm).2
      refine hout.trans ?_
      rw [Bounds.pushed_eq]
      exact congrArg₂ Bounds.mk (Bounds.rotated_outside hpos _).symm
        (Bounds.rotated_outside hpos _).symm
  simp only [Node.relocated, Node.onBounds, hmoved, Node.reparented, Node.rotated]

/-- What a move that is carried out has found, and the nodes that it leaves. -/
theorem Tie.exists_of_transplant {id targetId : Int} (hf : f.ids.Nodup)
    (h : f.transplant id (tie.placement targetId) = .ok (.moved, g)) :
    ∃ node ∈ f.nodes, ∃ target ∈ f.nodes, ∃ parent, node.id = id ∧ target.id = targetId ∧
      tie.parent? target = some parent ∧
      ((tie.anchor target.bounds).pivot < node.left ∨
        node.right < (tie.anchor target.bounds).pivot) ∧
      g.nodes.Perm (f.nodes.map (node.rotated parent (tie.anchor target.bounds).pivot)) := by
  by_cases hne : targetId = id
  · rw [hne, tie.transplant_self] at h
    cases h
  rw [tie.transplant_eq hne] at h
  cases hcut : f.cutting id targetId with
  | error e => simp [hcut] at h
  | ok subtree =>
    simp only [hcut] at h
    split at h
    · cases h
    next houter =>
    cases h
    obtain ⟨target, ht, htarget, node, hn, hnode, htree, hout⟩ :=
      Forest.exists_of_cutting hcut
    subst htarget hnode
    obtain ⟨parent, hp⟩ : ∃ parent, tie.parent? target = some parent := by
      cases tie with
      | firstChild => exact ⟨target.id, rfl⟩
      | nextSibling =>
        rw [Forest.isOutermost_of_mem_nodes hf ht] at houter
        apply Option.ne_none_iff_exists'.1
        exact fun hnone => houter ⟨rfl, Option.isNone_iff_eq_none.2 hnone⟩
    obtain ⟨hpivot, hrotated⟩ := Tie.relocated_eq_rotated hf hn ht hne htree hout
    refine ⟨node, hn, target, ht, parent, rfl, rfl, hp, hpivot, ?_⟩
    rw [← List.map_congr_left hrotated]
    exact (Tie.perm_nodes_relocated hf hn ht hne htree hout hp).symm

theorem nodes_eq_of_rotated_self {node : Node} {pivot : Int} (hn : node ∈ f.nodes)
    (hp : pivot = node.left - 1)
    (h : g.nodes.Perm (f.nodes.map (node.rotated parent pivot))) : g.nodes = f.nodes := by
  refine Forest.nodes_eq_of_bounds ?_ h
  intro n _
  have hbounds := Forest.bounds_of_mem_nodes hn
  have hmarker : ∀ marker, node.bounds.rotated pivot marker = marker :=
    Bounds.rotated_self hbounds.2.le hp
  exact ⟨rfl, congrArg₂ Bounds.mk (hmarker _) (hmarker _), rfl⟩

end Editing

/-! ### Handles -/

theorem Schema.exists_stands {s : Schema} {db : Database} {t : Table} (hf : s.Filed db t)
    (hc : Reading.check (s.recordsOf t) = .ok []) : ∃ f, Stands s db t f .unknown := by
  obtain ⟨f, hf', -, hshows⟩ := Reading.exists_forest_of_check hf.nodup_ids hc
  have hreads : s.Reads t f.nodes := by
    rw [Reading.Shows, recordsOf, List.map_map] at hshows
    exact hshows
  have hids : (t.rows.map (·.id)).Nodup :=
    List.pairwise_map.2 (hf.ordered.imp Int.ne_of_lt)
  exact ⟨f, ⟨hf.found, hf.declares, hids, hreads, trivial⟩, hf'⟩

theorem Handle.exists_stands {h : Handle} {store : Store} {t : Table}
    (hf : h.schema.Filed (store.view h.connection) t) (hc : h.read store Reading.check = .ok []) :
    ∃ f, Stands h.schema (store.view h.connection) t f .unknown := by
  rw [read_of_records (Schema.records_of_table? hf.found)] at hc
  exact Schema.exists_stands hf hc

theorem Stands.nodes_eq {h : Handle} {store : Store} {t : Table} {f : Forest Item}
    {supply : Supply} (hst : Stands h.schema (store.view h.connection) t f supply) :
    h.nodes store = .ok f.nodes :=
  (Handle.read_of_records hst.keeps.records_eq _).trans hst.keeps.reads.nodes_eq

theorem Stands.check_eq {h : Handle} {store : Store} {t : Table} {f : Forest Item}
    {supply : Supply} (hst : Stands h.schema (store.view h.connection) t f supply) :
    h.read store Reading.check = .ok [] :=
  (Handle.read_of_records hst.keeps.records_eq _).trans (hst.keeps.reads.check_eq hst.isTree)

/-- Where nothing is wrong with a tree, a move that is carried out rotates the markers of the tree:
the block of the subtree goes right behind the target's marker, which lies outside of it, and what
lies between gives way. One node gets a new parent; nothing else changes, and nothing at all where
the subtree already is in its place. -/
theorem move_rotates_markers {h : Handle} {s : Session} {t : Table} (hs : h.schema.Sound)
    (hf : h.schema.Filed (s.store.view h.connection) t)
    (hc : h.read s.store Reading.check = .ok []) (id targetId : Int) (tie : Editing.Tie)
    (mishaps : Mishaps)
    (ha : (s.edit h (.move id (tie.placement targetId)) mishaps).answer = .ok (.placed .moved)) :
    ∃ (nodes after : List Node) (node target : Node) (pivot parent : Int),
      h.nodes s.store = .ok nodes ∧
      h.nodes (s.edit h (.move id (tie.placement targetId)) mishaps).store = .ok after ∧
      (node ∈ nodes ∧ node.id = id) ∧ (target ∈ nodes ∧ target.id = targetId) ∧
      pivot = (tie.anchor target.bounds).pivot ∧ some parent = tie.parent? target ∧
      (pivot < node.left ∨ node.right < pivot) ∧
      after.Perm (nodes.map (node.rotated parent pivot)) ∧
      (pivot = node.left - 1 → after = nodes) := by
  obtain ⟨f, hst⟩ := Handle.exists_stands hf hc
  obtain ⟨d, d', hd, hr, hview⟩ := Session.exists_result ha
  rw [← hd] at hst
  obtain ⟨t', -, ⟨step, refusal, hrefusal⟩ | ⟨new, -, hanswer, hst'⟩⟩ :=
    Edit.result_of_stands hs hst _ hr
  · cases hrefusal
  rw [hd] at hst
  rw [← hview] at hst'
  obtain ⟨g, hg, hgrown⟩ : ∃ g, f.transplant id (tie.placement targetId) = .ok (.moved, g) ∧
      Edit.grown h.schema new f (.move id (tie.placement targetId)) = g := by
    unfold Edit.grown
    simp only [Edit.onForest] at hanswer ⊢
    cases htrans : f.transplant id (tie.placement targetId) with
    | error e => simp [htrans, Except.map] at hanswer
    | ok x =>
      obtain ⟨outcome, g⟩ := x
      simp only [htrans, Except.map, Except.ok.injEq, Answer.placed.injEq] at hanswer
      exact ⟨g, by rw [hanswer], rfl⟩
  obtain ⟨node, hn, target, ht, parent, hid, htarget, hparent, hpivot, hperm⟩ :=
    Editing.Tie.exists_of_transplant hst.nodup_ids hg
  rw [hgrown] at hst'
  exact ⟨f.nodes, g.nodes, node, target, _, parent, hst.nodes_eq, hst'.nodes_eq, ⟨hn, hid⟩,
    ⟨ht, htarget⟩, rfl, hparent.symm, hpivot, hperm,
    fun hp => Editing.nodes_eq_of_rotated_self hn hp hperm⟩

/-- The tree `1(3(4) 2)`. -/
def branch : Forest Item :=
  .tree ⟨1, []⟩ (.tree ⟨3, []⟩ (.tree ⟨4, []⟩ .nil .nil) (.tree ⟨2, []⟩ .nil .nil)) .nil

theorem stands_branch : ∃ t, Stands plainHandle.schema branchStore.committed t branch .unknown := by
  obtain ⟨t, ht⟩ : ∃ t, branchStore.committed.table? plainHandle.schema.table = some t := ⟨_, rfl⟩
  refine ⟨t, ⟨ht, ?_, ?_, ?_, trivial⟩, rfl⟩ <;> cases ht
  · exact ⟨rfl, rfl⟩
  · decide
  · change List.Perm _ _
    decide +kernel

/-- The third node goes behind the second. Its block of four markers goes up by two, and the two
markers of the second node go down by four. -/
theorem move_rotates_markers_branch :
    let e : Edit := .move 3 (.after 2)
    (Session.edit ⟨branchStore, []⟩ plainHandle e []).answer = .ok (.placed .moved) ∧
      ∃ after, plainHandle.nodes (Session.edit ⟨branchStore, []⟩ plainHandle e []).store =
          .ok after ∧
        after.Perm [⟨1, 1, 8, none, []⟩, ⟨3, 4, 7, some 1, []⟩, ⟨4, 5, 6, some 3, []⟩,
          ⟨2, 2, 3, some 1, []⟩] := by
  intro e
  obtain ⟨t, hst⟩ := stands_branch
  have hview : branchStore.view plainHandle.connection = branchStore.committed := rfl
  rw [← hview] at hst
  have hf : plainHandle.schema.Filed (branchStore.view plainHandle.connection) t := by
    refine ⟨hst.keeps.found, hst.keeps.declares, ?_⟩
    cases hst.keeps.found
    decide
  have ha : (Session.edit ⟨branchStore, []⟩ plainHandle e []).answer = .ok (.placed .moved) :=
    Handle.edit_move_of_stands sound_plainHandle hst rfl 3 (.after 2)
  obtain ⟨nodes, after, node, target, pivot, parent, hbefore, hafter, ⟨hn, hid⟩, ⟨ht, htarget⟩,
    rfl, hparent, -, hperm, -⟩ :=
    move_rotates_markers sound_plainHandle hf hst.check_eq 3 2 .nextSibling [] ha
  obtain rfl := Except.ok.inj (hst.nodes_eq.symm.trans hbefore)
  refine ⟨ha, after, hafter, ?_⟩
  obtain rfl : node = ⟨3, 2, 5, some 1, []⟩ :=
    Forest.eq_of_mem_nodes (by decide) hn (by decide) hid
  obtain rfl : target = ⟨2, 6, 7, some 1, []⟩ :=
    Forest.eq_of_mem_nodes (by decide) ht (by decide) htarget
  cases hparent
  exact hperm

end NestedSet
