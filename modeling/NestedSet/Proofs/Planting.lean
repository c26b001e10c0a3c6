import Mathlib
import NestedSet.Proofs.Ideal
import NestedSet.Proofs.Moving
import NestedSet.Proofs.Numbering

/-!
# The nodes of a forest after an edit

The nodes of a forest are its walk from marker 1 on. For each way to edit the
forest the nodes afterwards are those before, pushed up behind the place of
the edit, together with those that have come.
-/

set_option autoImplicit false

namespace NestedSet

def Visit.node (v : Visit Item) : Node :=
  ⟨v.label.id, v.bounds.left, v.bounds.right, v.parent.map (·.id), v.label.payload⟩

theorem Item.is_iff {id : Int} {a : Item} : a.is id = true ↔ a.id = id := by
  simp [Item.is]

namespace Forest

variable {f g new : Forest Item} {n : Node} {id : Int}

def ids (f : Forest Item) : List Int := f.labels.map (·.id)

theorem map_id_nodes (f : Forest Item) : f.nodes.map (·.id) = f.ids := by
  rw [nodes, List.map_map, ids, ← map_label_walk f none 1, List.map_map]
  rfl

theorem nodes_eq (f : Forest Item) : f.nodes = (f.walk none 1).map Visit.node := rfl

theorem length_nodes (f : Forest Item) : f.nodes.length = f.size := by
  rw [nodes_eq, List.length_map, length_walk]

theorem has_iff : f.has id = true ↔ id ∈ f.ids := by
  simp only [has, List.any_eq_true, Item.is_iff, ids, List.mem_map]

theorem has_eq_false_iff : f.has id = false ↔ ∀ n ∈ f.nodes, n.id ≠ id := by
  rw [Bool.eq_false_iff, ne_eq, has_iff, ← map_id_nodes, List.mem_map]
  simp

theorem distinct_is (h : f.ids.Nodup) (id : Int) : Distinct (Item.is id) f := by
  apply (List.pairwise_map.1 h).imp
  intro a b hab ha
  rw [Item.is_iff] at ha
  rw [Bool.eq_false_iff, ne_eq, Item.is_iff]
  exact fun hb => hab (ha.trans hb.symm)

theorem exists_visit (h : n ∈ f.nodes) : ∃ v ∈ f.walk none 1, v.node = n := List.mem_map.1 h

theorem bounds_of_mem_nodes (h : n ∈ f.nodes) : 1 ≤ n.left ∧ n.left < n.right := by
  obtain ⟨v, hv, rfl⟩ := exists_visit h
  have := bounds_of_mem_walk hv
  exact ⟨this.1, this.2.1⟩

theorem right_le_of_mem_nodes (h : n ∈ f.nodes) : n.right ≤ 2 * f.size := by
  obtain ⟨v, hv, rfl⟩ := exists_visit h
  have hend := (bounds_of_mem_walk hv).2.2
  simp only [walkEnd] at hend
  change v.bounds.right ≤ _
  omega

theorem has_of_mem_nodes (h : n ∈ f.nodes) : f.has n.id = true := by
  rw [has_iff, ← map_id_nodes]
  exact List.mem_map_of_mem h

theorem eq_of_mem_nodes {m : Node} (hf : f.ids.Nodup) (hn : n ∈ f.nodes) (hm : m ∈ f.nodes)
    (h : n.id = m.id) : n = m := by
  rw [← map_id_nodes] at hf
  exact List.inj_on_of_nodup_map hf hn hm h

/-! ### Outermost labels -/

theorem isOutermost_of_mem_nodes (hf : f.ids.Nodup) (hn : n ∈ f.nodes) :
    f.isOutermost n.id = n.parent.isNone := by
  rw [isOutermost, ← filter_parent_walk f 1, Bool.eq_iff_iff]
  simp only [List.any_eq_true, List.mem_map, List.mem_filter, Item.is_iff]
  constructor
  · rintro ⟨a, ⟨v, ⟨hv, hp⟩, rfl⟩, ha⟩
    have hvn : v.node = n := eq_of_mem_nodes hf (List.mem_map_of_mem hv) hn ha
    rw [← hvn]
    simpa [Visit.node] using hp
  · intro hp
    obtain ⟨v, hv, rfl⟩ := exists_visit hn
    refine ⟨v.label, ⟨v, ⟨hv, ?_⟩, rfl⟩, rfl⟩
    simpa [Visit.node] using hp

theorem roots_insertBelow (pick : Item → Bool) (new f : Forest Item) :
    (f.insertBelow pick new).roots = f.roots := by
  induction f with
  | nil => rfl
  | tree a children rest _ ihr => simp [insertBelow, roots, ihr]

theorem roots_insertAfter {pick : Item → Bool} (new : Forest Item)
    (h : f.roots.any pick = false) : (f.insertAfter pick new).roots = f.roots := by
  induction f with
  | nil => rfl
  | tree a children rest _ ihr =>
    simp only [roots, List.any_cons, Bool.or_eq_false_iff] at h
    simp [insertAfter, roots, h.1, ihr h.2]

theorem roots_erase (pick : Item → Bool) (f : Forest Item) :
    (f.erase pick).roots = f.roots.filter fun a => !pick a := by
  induction f with
  | nil => rfl
  | tree a children rest _ ihr =>
    by_cases h : pick a = true <;> simp [erase, roots, h, ihr]

theorem roots_map (e : Item → Item) (f : Forest Item) : (f.map e).roots = f.roots.map e := by
  induction f with
  | nil => rfl
  | tree a children rest _ ihr => simp [map, roots, ihr]

theorem nodes_map {e : Item → Item} (he : ∀ a, (e a).id = a.id) (f : Forest Item) :
    (f.map e).nodes = f.nodes.map fun n => { n with payload := (e ⟨n.id, n.payload⟩).payload } := by
  have hwalk := walk_map e f none 1
  rw [Option.map_none] at hwalk
  rw [nodes_eq, nodes_eq, hwalk, List.map_map, List.map_map]
  apply List.map_congr_left
  intro v _
  simp [Visit.node, he, Function.comp_def]

/-! ### Grafts -/

namespace Graft

variable {site : Option Item} {start : Int}

theorem perm_nodes (h : Graft new none 1 site start f g) :
    g.nodes.Perm ((new.walk site start).map Visit.node ++
      f.nodes.map (Node.onBounds (Bounds.pushed (start - 1) (2 * new.size)))) := by
  have := h.perm_walk.map Visit.node
  rw [List.map_append, List.map_map] at this
  rw [nodes_eq g, nodes_eq f, List.map_map]
  exact this

theorem perm_ids (h : Graft new none 1 site start f g) : g.ids.Perm (new.ids ++ f.ids) := by
  have := h.perm_nodes.map (·.id)
  rw [map_id_nodes, List.map_append, List.map_map, List.map_map] at this
  rw [← map_id_nodes f]
  refine this.trans (List.Perm.append (List.Perm.of_eq ?_) (List.Perm.refl _))
  rw [ids, ← map_label_walk new site start, List.map_map]
  rfl

end Graft

theorem graft_insertBelow_node (hf : f.ids.Nodup) (hn : n ∈ f.nodes) (new : Forest Item) :
    ∃ site : Option Item, site.map (·.id) = some n.id ∧
      Graft new none 1 site (n.left + 1) f (f.insertBelow (Item.is n.id) new) := by
  obtain ⟨v, hv, rfl⟩ := exists_visit hn
  exact ⟨some v.label, rfl, graft_insertBelow (distinct_is hf _) hv (Item.is_iff.2 rfl)⟩

theorem graft_insertAfter_node (hf : f.ids.Nodup) (hn : n ∈ f.nodes) (new : Forest Item) :
    ∃ site : Option Item, site.map (·.id) = n.parent ∧
      Graft new none 1 site (n.right + 1) f (f.insertAfter (Item.is n.id) new) := by
  obtain ⟨v, hv, rfl⟩ := exists_visit hn
  exact ⟨v.parent, rfl, graft_insertAfter (distinct_is hf _) hv (Item.is_iff.2 rfl)⟩

theorem perm_nodes_leaf {leaf : Item} {site : Option Item} {pivot : Int}
    (h : Graft (tree leaf nil nil) none 1 site (pivot + 1) f g) :
    g.nodes.Perm (⟨leaf.id, pivot + 1, pivot + 2, site.map (·.id), leaf.payload⟩ ::
      f.nodes.map (Node.onBounds (Bounds.pushed pivot 2))) := by
  have := h.perm_nodes
  have hpivot : pivot + 1 - 1 = pivot := by omega
  have hexit : pivot + 1 + 1 = pivot + 2 := by omega
  simpa [walk, size, Visit.node, hpivot, hexit] using this

/-- The tree at a node and the forest without it. -/
theorem exists_cut (hf : f.ids.Nodup) (hn : n ∈ f.nodes) :
    ∃ (children : Forest Item) (site : Option Item), site.map (·.id) = n.parent ∧
      f.treeAt? (Item.is n.id) = some (tree ⟨n.id, n.payload⟩ children nil) ∧
      n.right = n.left + 2 * (tree ⟨n.id, n.payload⟩ children nil).size - 1 ∧
      Graft (tree ⟨n.id, n.payload⟩ children nil) none 1 site n.left
        (f.erase (Item.is n.id)) f := by
  obtain ⟨v, hv, rfl⟩ := exists_visit hn
  obtain ⟨children, ht, hr, hg⟩ := graft_erase (distinct_is hf v.label.id) hv (Item.is_iff.2 rfl)
  refine ⟨children, v.parent, rfl, ht, ?_, hg⟩
  simp only [Visit.node, size, hr]
  omega

theorem treeAt?_isNone (h : f.has id = false) : f.treeAt? (Item.is id) = none := by
  refine treeAt?_eq_none ?_
  intro a ha
  rw [has, List.any_eq_false] at h
  simpa using h a ha

end Forest

/-! ### Removing and moving, as the statements do it -/

def Node.reparented (id parent : Int) (n : Node) : Node :=
  { n with parent := if n.id = id then some parent else n.parent }

/-- The whole way of a node when the subtree in `range`, whose root is `id`, moves behind `pivot`
and under a new parent. -/
def Node.relocated (id parent : Int) (range : Bounds) (pivot : Int) (n : Node) : Node :=
  (n.onBounds (range.moved pivot)).reparented id parent

namespace Forest.Graft

open Request

variable {new f g : Forest Item} {site : Option Item} {left : Int}

def gap (new : Forest Item) (left : Int) : Bounds := ⟨left, left + 2 * new.size - 1⟩

theorem covers_of_mem_graft {n : Node} (h : n ∈ (new.walk site left).map Visit.node) :
    covers (gap new left) n = true := by
  obtain ⟨v, hv, rfl⟩ := List.mem_map.1 h
  have hb := bounds_of_mem_walk hv
  simp only [walkEnd] at hb
  rw [covers_iff]
  simp only [gap, Visit.node]
  omega

theorem covers_of_mem_rest {n : Node} (h : n ∈ f.nodes.map
    (Node.onBounds (Bounds.pushed (left - 1) (2 * new.size)))) :
    covers (gap new left) n = false := by
  obtain ⟨m, hm, rfl⟩ := List.mem_map.1 h
  rw [Bool.eq_false_iff, ne_eq, covers_iff]
  simp only [gap, Node.onBounds, Node.bounds, Bounds.pushed]
  split_ifs <;> omega

theorem countP_covers (h : Graft new none 1 site left f g) :
    g.nodes.countP (covers (gap new left)) = new.size := by
  rw [h.perm_nodes.countP_eq, List.countP_append,
    List.countP_eq_length.2 fun n hn => covers_of_mem_graft hn,
    List.countP_eq_zero.2 fun n hn => by simp [covers_of_mem_rest hn],
    List.length_map, length_walk, Nat.add_zero]

theorem perm_nodes_closed (h : Graft new none 1 site left f g) (hw : 0 < new.size) :
    ((g.nodes.filter fun n => !covers (gap new left) n).map
      (Node.onBounds (Bounds.closed (gap new left)))).Perm f.nodes := by
  have hrest : ((f.nodes.map (Node.onBounds (Bounds.pushed (left - 1) (2 * new.size)))).map
      (Node.onBounds (Bounds.closed (gap new left)))) = f.nodes := by
    rw [List.map_map]
    refine (List.map_congr_left (g := id) ?_).trans (List.map_id _)
    intro n hn
    have := @Bounds.closed_pushed left (2 * new.size) n.bounds (by omega)
      (bounds_of_mem_nodes hn).2
    rw [Function.comp_apply, Node.onBounds, Node.onBounds, gap]
    simp only [Node.bounds] at this ⊢
    rw [this]
    rfl
  have hgone : ((new.walk site left).map Visit.node).filter
      (fun n => !covers (gap new left) n) = [] := by
    rw [List.filter_eq_nil_iff]
    intro n hn
    simp [covers_of_mem_graft hn]
  have hleft : (f.nodes.map (Node.onBounds (Bounds.pushed (left - 1) (2 * new.size)))).filter
      (fun n => !covers (gap new left) n) =
        f.nodes.map (Node.onBounds (Bounds.pushed (left - 1) (2 * new.size))) := by
    rw [List.filter_eq_self]
    intro n hn
    simp [covers_of_mem_rest hn]
  have hfilter := h.perm_nodes.filter fun n => !covers (gap new left) n
  rw [List.filter_append, hgone, hleft, List.nil_append] at hfilter
  have hmap := hfilter.map (Node.onBounds (Bounds.closed (gap new left)))
  rw [hrest] at hmap
  exact hmap

variable {f₀ : Forest Item} {a : Item} {children : Forest Item} {site' : Option Item}
  {parent pivot : Int}

theorem map_relocated_graft (hnew : (tree a children nil).ids.Nodup)
    (hs : site'.map (·.id) = some parent) :
    (((tree a children nil).walk site left).map Visit.node).map
      (Node.relocated a.id parent (gap (tree a children nil) left)
        (raised (left - 1) (2 * (tree a children nil).size) pivot)) =
      ((tree a children nil).walk site' (pivot + 1)).map Visit.node := by
  have hbounds : ∀ v ∈ (tree a children nil).walk site left,
      (gap (tree a children nil) left).moved
        (raised (left - 1) (2 * (tree a children nil).size) pivot) v.bounds =
          v.bounds.shifted (pivot + 1 - left) := by
    intro v hv
    have hb := bounds_of_mem_walk hv
    simp only [walkEnd] at hb
    exact Bounds.moved_inside hb.1 hb.2.1 (by omega)
  have hchildren : ∀ v ∈ children.walk (some a) (left + 1), v.label.id ≠ a.id := by
    intro v hv he
    simp only [ids, labels, List.map_cons, List.nodup_cons] at hnew
    have hmem := List.mem_append_left (nil : Forest Item).labels (label_mem_labels hv)
    exact hnew.1 (he ▸ List.mem_map_of_mem hmem)
  have hstart : pivot + 1 = left + (pivot + 1 - left) := by omega
  rw [hstart, walk_add, List.map_map, List.map_map]
  simp only [walk, List.append_nil, List.map_cons, List.cons.injEq]
  constructor
  · have := hbounds ⟨a, ⟨left, left + 2 * children.size + 1⟩, site⟩ (by simp [walk])
    simp only at this
    simp [Node.relocated, Node.reparented, Node.onBounds, Node.bounds, Visit.node,
      Visit.onBounds, this, hs]
  · apply List.map_congr_left
    intro v hv
    have := hbounds v (by simp [walk, hv])
    simp [Node.relocated, Node.reparented, Node.onBounds, Node.bounds, Visit.node,
      Visit.onBounds, this, hchildren v hv]

/-- Moving a subtree as the statements do it is cutting it off and grafting it elsewhere. -/
theorem perm_nodes_relocated (hf : f.ids.Nodup)
    (h : Graft (tree a children nil) none 1 site left f₀ f)
    (h' : Graft (tree a children nil) none 1 site' (pivot + 1) f₀ g)
    (hs : site'.map (·.id) = some parent) :
    (f.nodes.map (Node.relocated a.id parent (gap (tree a children nil) left)
      (raised (left - 1) (2 * (tree a children nil).size) pivot))).Perm g.nodes := by
  obtain ⟨hnew, _, hapart⟩ := List.nodup_append.1 (h.perm_ids.nodup_iff.1 hf)
  have hrest : (f₀.nodes.map (Node.onBounds (Bounds.pushed (left - 1)
      (2 * (tree a children nil).size)))).map
        (Node.relocated a.id parent (gap (tree a children nil) left)
          (raised (left - 1) (2 * (tree a children nil).size) pivot)) =
      f₀.nodes.map (Node.onBounds (Bounds.pushed pivot (2 * (tree a children nil).size))) := by
    rw [List.map_map]
    apply List.map_congr_left
    intro n hn
    have hid : n.id ≠ a.id := by
      intro he
      refine hapart a.id (by simp [ids, labels]) n.id ?_ he.symm
      rw [← map_id_nodes]
      exact List.mem_map_of_mem hn
    have hmoved := @Bounds.moved_outside left (2 * (tree a children nil).size) pivot n.bounds
      (by simp only [size]; omega) (bounds_of_mem_nodes hn).2
    simp only [Function.comp_apply, Node.relocated, Node.reparented, Node.onBounds, Node.bounds,
      gap, hid, if_false] at hmoved ⊢
    rw [hmoved]
  have hstart : pivot + 1 - 1 = pivot := by omega
  have hg := h'.perm_nodes
  rw [hstart] at hg
  have hmap := h.perm_nodes.map (Node.relocated a.id parent (gap (tree a children nil) left)
    (raised (left - 1) (2 * (tree a children nil).size) pivot))
  rw [List.map_append, map_relocated_graft hnew hs, hrest] at hmap
  exact hmap.trans hg.symm

end Forest.Graft

end NestedSet
