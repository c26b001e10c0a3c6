import Mathlib
import NestedSet.Proofs.Rotation

/-!
# Parents and siblings after a move

A move gives one node another parent, and among the children of that parent it
comes right where the tie puts it; the others keep their order. Since the node
is not above the target, nothing above the target changes. So a move that is
made before another one does not change what the other one answers.
-/

set_option autoImplicit false

namespace NestedSet

open Relation (TransGen)

def childIds (nodes : List Node) (parent : Int) : List Int :=
  (nodes.filter fun n => decide (n.parent = some parent)).map (·.id)

def insertBehind (a : Int) (others l : List Int) : List Int :=
  l.flatMap fun b => if b = a then b :: others else [b]

theorem insertBehind_of_not_mem {a : Int} {l : List Int} (h : a ∉ l) (others : List Int) :
    insertBehind a others l = l := by
  induction l with
  | nil => rfl
  | cons b rest ih =>
    rw [List.mem_cons, not_or] at h
    have hrest := ih h.2
    rw [insertBehind] at hrest ⊢
    rw [List.flatMap_cons, hrest, if_neg (Ne.symm h.1)]
    rfl

theorem insertBehind_split {a : Int} {others pre post : List Int} (hpre : a ∉ pre)
    (hpost : a ∉ post) :
    insertBehind a others (pre ++ a :: post) = pre ++ a :: (others ++ post) := by
  have hbefore := insertBehind_of_not_mem hpre others
  have hbehind := insertBehind_of_not_mem hpost others
  rw [insertBehind] at hbefore hbehind ⊢
  rw [List.flatMap_append, List.flatMap_cons, hbefore, hbehind, if_pos rfl, List.cons_append]

theorem filter_insertBehind {a : Int} {p : Int → Bool} (ha : p a = true) (others l : List Int) :
    (insertBehind a others l).filter p = insertBehind a (others.filter p) (l.filter p) := by
  rw [insertBehind, insertBehind, List.filter_flatMap]
  induction l with
  | nil => rfl
  | cons b rest ih =>
    rw [List.flatMap_cons, ih]
    by_cases hb : b = a
    · simp [hb, ha]
    · by_cases hp : p b = true <;> simp [hb, hp]

theorem insertBehind_insertBehind {a : Int} {others : List Int} (ha : a ∉ others)
    (more l : List Int) :
    insertBehind a more (insertBehind a others l) = insertBehind a (more ++ others) l := by
  have hothers := insertBehind_of_not_mem ha more
  rw [insertBehind] at hothers
  rw [insertBehind, insertBehind, List.flatMap_assoc, insertBehind]
  congr 1
  funext b
  by_cases hb : b = a <;> simp [hb, hothers]

namespace Bounds

variable {node : Bounds} {pivot x y : Int}

theorem rotated_lt (hn : node.left ≤ node.right) (hx : x < node.left ∨ node.right < x)
    (hy : y < node.left ∨ node.right < y) (h : x < y) :
    node.rotated pivot x < node.rotated pivot y := by
  simp only [rotated, span]
  split_ifs <;> omega

theorem rotated_lt_left (hn : node.left ≤ node.right) (hx : x < node.left ∨ node.right < x)
    (h : x ≤ pivot) :
    node.rotated pivot x < node.rotated pivot node.left := by
  simp only [rotated, span]
  split_ifs <;> omega

theorem left_lt_rotated (hn : node.left < node.right) (hp : pivot < node.left ∨ node.right < pivot)
    (hx : x < node.left ∨ node.right < x) (h : pivot < x) :
    node.rotated pivot node.left < node.rotated pivot x := by
  simp only [rotated, span]
  split_ifs <;> omega

end Bounds

/-! ### One node among the others -/

namespace Forest

variable {f g : Forest Item} {node target m n u : Node} {parent pivot : Int}

theorem left_outside_of_parent (hf : f.ids.Nodup) (hn : n ∈ f.nodes) (hm : m ∈ f.nodes)
    (hu : u ∈ f.nodes) (hp : m.parent = some u.id) (hmn : m ≠ n) (hun : u ≠ n)
    (hout : ¬n.bounds.contains u.bounds = true) : m.left < n.left ∨ n.right < m.left := by
  by_contra hin
  rw [not_or, Int.not_lt, Int.not_lt] at hin
  rcases inside_of_left hn hm hin.1 hin.2 with heq | hnm
  · exact hmn heq
  · rcases (contains_of_parent hf hm hu hp).2 n hn hnm with rfl | hnu
    · exact hun rfl
    · exact hout hnu

theorem isParent_rotated (hn : node ∈ f.nodes)
    (h : g.nodes.Perm (f.nodes.map (node.rotated parent pivot))) {a b : Int} :
    IsParent g.nodes a b ↔
      (b = node.id ∧ a = parent) ∨ (b ≠ node.id ∧ IsParent f.nodes a b) := by
  constructor
  · rintro ⟨n, hn, rfl, hp⟩
    obtain ⟨m, hm, rfl⟩ := List.mem_map.1 (h.mem_iff.1 hn)
    by_cases hid : m.id = node.id
    · rw [Node.rotated, if_pos hid] at hp
      exact .inl ⟨hid, (Option.some.inj hp).symm⟩
    · rw [Node.rotated, if_neg hid] at hp
      exact .inr ⟨hid, m, hm, rfl, hp⟩
  · rintro (⟨rfl, rfl⟩ | ⟨hne, m, hm, rfl, hp⟩)
    · exact ⟨node.rotated a pivot node, h.mem_iff.2 (List.mem_map_of_mem hn), rfl, if_pos rfl⟩
    · exact ⟨node.rotated parent pivot m, h.mem_iff.2 (List.mem_map_of_mem hm), rfl,
        (if_neg hne).trans hp⟩

theorem ids_rotated (h : g.nodes.Perm (f.nodes.map (node.rotated parent pivot))) :
    g.ids.Perm f.ids := by
  rw [← map_id_nodes, ← map_id_nodes]
  refine (h.map _).trans (.of_eq ?_)
  rw [List.map_map]
  rfl

theorem transGen_rotated (hn : node ∈ f.nodes)
    (h : g.nodes.Perm (f.nodes.map (node.rotated parent pivot))) {b : Int} (hb : b ≠ node.id)
    (hout : ¬TransGen (IsParent f.nodes) node.id b) (a : Int) :
    TransGen (IsParent g.nodes) a b ↔ TransGen (IsParent f.nodes) a b := by
  -- both ways from the top: whatever is on the way is above b, so it is not what was moved
  constructor
  · intro hab
    induction hab using TransGen.head_induction_on with
    | single hab => exact .single (((isParent_rotated hn h).1 hab).resolve_left fun x => hb x.1).2
    | @head a c hac _ ih =>
      have hc : c ≠ node.id := fun he => hout (he ▸ ih)
      exact .head (((isParent_rotated hn h).1 hac).resolve_left fun x => hc x.1).2 ih
  · intro hab
    induction hab using TransGen.head_induction_on with
    | single hab => exact .single ((isParent_rotated hn h).2 (.inr ⟨hb, hab⟩))
    | @head a c hac hcb ih =>
      have hc : c ≠ node.id := fun he => hout (he ▸ hcb)
      exact .head ((isParent_rotated hn h).2 (.inr ⟨hc, hac⟩)) ih

def childrenBut (f : Forest Item) (parent id : Int) : List Node :=
  f.nodes.filter fun m => decide (m.parent = some parent) && decide (m.id ≠ id)

theorem mem_childrenBut {id : Int} :
    m ∈ f.childrenBut parent id ↔ m ∈ f.nodes ∧ m.parent = some parent ∧ m.id ≠ id := by
  simp only [childrenBut, List.mem_filter, Bool.and_eq_true, decide_eq_true_eq]

theorem map_id_childrenBut (f : Forest Item) (parent id : Int) :
    (f.childrenBut parent id).map (·.id) =
      (childIds f.nodes parent).filter fun i => decide (i ≠ id) := by
  rw [childIds, List.filter_map, List.filter_filter]
  simp only [childrenBut, Function.comp_def, Bool.and_comm]

theorem pairwise_left_childrenBut (f : Forest Item) (parent id : Int) :
    (f.childrenBut parent id).Pairwise fun a b => a.left < b.left :=
  f.pairwise_left_nodes.filter _

theorem left_outside_of_childrenBut (hf : f.ids.Nodup) (hn : n ∈ f.nodes) (hu : u ∈ f.nodes)
    (hun : u ≠ n) (hout : ¬n.bounds.contains u.bounds = true)
    (hm : m ∈ f.childrenBut u.id n.id) : m.left < n.left ∨ n.right < m.left := by
  obtain ⟨hm, hp, hid⟩ := mem_childrenBut.1 hm
  exact left_outside_of_parent hf hn hm hu hp (fun he => hid (congrArg Node.id he)) hun hout

theorem right_lt_left_of_parent (hf : f.ids.Nodup) (hn : n ∈ f.nodes) (hm : m ∈ f.nodes)
    (hu : u ∈ f.nodes) (hnp : n.parent = some u.id) (hmp : m.parent = some u.id)
    (h : n.left < m.left) : n.right < m.left := by
  have hmn : m ≠ n := by
    rintro rfl
    exact Int.lt_irrefl _ h
  have hun := (contains_of_parent hf hn hu hnp).1
  have hne : u ≠ n := by
    rintro rfl
    simp [Bounds.contains_irrefl] at hun
  have hout : ¬n.bounds.contains u.bounds = true := by
    intro hnu
    have hloop := Bounds.contains_trans hun hnu
    simp [Bounds.contains_irrefl] at hloop
  have hside := left_outside_of_parent hf hn hm hu hmp hmn hne hout
  omega

/-- Among the children of its new parent the moved node comes between those that begin up to the
pivot and those that begin behind it. -/
theorem childIds_rotated (hf : f.ids.Nodup) (hn : node ∈ f.nodes)
    (hp : pivot < node.left ∨ node.right < pivot)
    (h : g.nodes.Perm (f.nodes.map (node.rotated parent pivot))) (pre post : List Node)
    (hsplit : f.childrenBut parent node.id = pre ++ post)
    (hout : ∀ m ∈ pre ++ post, m.left < node.left ∨ node.right < m.left)
    (hpre : ∀ m ∈ pre, m.left ≤ pivot) (hpost : ∀ m ∈ post, pivot < m.left) :
    childIds g.nodes parent = pre.map (·.id) ++ node.id :: post.map (·.id) := by
  have hbounds := (bounds_of_mem_nodes hn).2
  have hsorted : (pre ++ post).Pairwise fun a b => a.left < b.left := by
    rw [← hsplit]
    exact f.pairwise_left_childrenBut parent node.id
  have hrest : ((pre ++ post).map (node.rotated parent pivot)).Pairwise
      fun a b => a.left < b.left := by
    rw [List.pairwise_map]
    exact hsorted.imp_of_mem fun ha hb => Bounds.rotated_lt hbounds.le (hout _ ha) (hout _ hb)
  have hlist : (g.nodes.filter fun m => decide (m.parent = some parent)) =
      pre.map (node.rotated parent pivot) ++ node.rotated parent pivot node ::
        post.map (node.rotated parent pivot) := by
    refine eq_of_mem_iff (g.pairwise_left_nodes.filter _) ?_ ?_
    · rw [List.map_append, List.pairwise_append] at hrest
      refine List.pairwise_append.2 ⟨hrest.1, List.pairwise_cons.2 ⟨?_, hrest.2.1⟩, ?_⟩
      · refine List.forall_mem_map.2 ?_
        intro m hm
        exact Bounds.left_lt_rotated hbounds hp (hout m (List.mem_append_right _ hm)) (hpost m hm)
      · refine List.forall_mem_map.2 ?_
        intro m hm
        refine List.forall_mem_cons.2 ⟨?_, hrest.2.2 _ (List.mem_map_of_mem hm)⟩
        exact Bounds.rotated_lt_left hbounds.le (hout m (List.mem_append_left _ hm)) (hpre m hm)
    · intro x
      have hmem : x ∈ pre.map (node.rotated parent pivot) ++ node.rotated parent pivot node ::
          post.map (node.rotated parent pivot) ↔ x = node.rotated parent pivot node ∨
            x ∈ (pre ++ post).map (node.rotated parent pivot) := by
        simp only [List.mem_append, List.mem_cons, List.map_append]
        tauto
      rw [hmem, ← hsplit, List.mem_filter, h.mem_iff, decide_eq_true_eq]
      simp only [List.mem_map, mem_childrenBut]
      constructor
      · rintro ⟨⟨m, hm, rfl⟩, hparent⟩
        by_cases hid : m.id = node.id
        · rw [eq_of_mem_nodes hf hm hn hid]
          exact .inl rfl
        · exact .inr ⟨m, ⟨hm, (if_neg hid).symm.trans hparent, hid⟩, rfl⟩
      · rintro (rfl | ⟨m, ⟨hm, hparent, hid⟩, rfl⟩)
        · exact ⟨⟨node, hn, rfl⟩, if_pos rfl⟩
        · exact ⟨⟨m, hm, rfl⟩, (if_neg hid).trans hparent⟩
  rw [childIds, hlist, List.map_append, List.map_cons, List.map_map, List.map_map]
  rfl

theorem childIds_rotated_below (hf : f.ids.Nodup) (hn : node ∈ f.nodes) (ht : target ∈ f.nodes)
    (hne : target ≠ node) (hnot : ¬node.bounds.contains target.bounds = true)
    (hp : target.left < node.left ∨ node.right < target.left)
    (h : g.nodes.Perm (f.nodes.map (node.rotated target.id target.left))) :
    childIds g.nodes target.id =
      node.id :: (childIds f.nodes target.id).filter fun i => decide (i ≠ node.id) := by
  rw [← map_id_childrenBut]
  refine childIds_rotated hf hn hp h [] _ rfl ?_ (by simp) ?_
  · exact fun m hm => left_outside_of_childrenBut hf hn ht hne hnot hm
  · intro m hm
    obtain ⟨hm, hmp, -⟩ := mem_childrenBut.1 hm
    exact (Bounds.contains_iff.1 (contains_of_parent hf hm ht hmp).1).1

theorem childIds_rotated_behind (hf : f.ids.Nodup) (hn : node ∈ f.nodes) (ht : target ∈ f.nodes)
    (hne : target ≠ node) (hnot : ¬node.bounds.contains target.bounds = true)
    (hparent : target.parent = some parent)
    (hp : target.right < node.left ∨ node.right < target.right)
    (h : g.nodes.Perm (f.nodes.map (node.rotated parent target.right))) :
    childIds g.nodes parent = insertBehind target.id [node.id]
      ((childIds f.nodes parent).filter fun i => decide (i ≠ node.id)) := by
  obtain ⟨u, hu, rfl, hut, -⟩ := exists_parent ht hparent
  have hid : target.id ≠ node.id := fun he => hne (eq_of_mem_nodes hf ht hn he)
  obtain ⟨pre, post, hsplit⟩ :=
    List.append_of_mem (mem_childrenBut.2 ⟨ht, hparent, hid⟩)
  have hmem : ∀ m ∈ pre ++ target :: post, m ∈ f.childrenBut u.id node.id := by
    intro m hm
    rwa [hsplit]
  have hsorted := f.pairwise_left_childrenBut u.id node.id
  rw [hsplit] at hsorted
  obtain ⟨-, hpost, hpre⟩ := List.pairwise_append.1 hsorted
  have hchildren : childIds g.nodes u.id =
      (pre ++ [target]).map (·.id) ++ node.id :: post.map (·.id) := by
    apply childIds_rotated hf hn hp h
    case hsplit => rw [hsplit, List.append_assoc, List.singleton_append]
    case hout =>
      intro m hm
      refine left_outside_of_childrenBut hf hn hu ?_ ?_ (hmem m (by simpa using hm))
      · rintro rfl
        exact hnot hut
      · exact fun hnu => hnot (Bounds.contains_trans hnu hut)
    case hpre =>
      intro m hm
      have hwidth := (bounds_of_mem_nodes ht).2
      rcases List.mem_append.1 hm with hm | hm
      · exact ((hpre m hm target List.mem_cons_self).trans hwidth).le
      · rw [List.mem_singleton.1 hm]
        exact hwidth.le
    case hpost =>
      intro m hm
      obtain ⟨hmf, hmp, -⟩ := mem_childrenBut.1 (hmem m (by simp [hm]))
      exact right_lt_left_of_parent hf ht hmf hu hparent hmp ((List.pairwise_cons.1 hpost).1 m hm)
  have hids : (pre ++ target :: post).map (·.id) =
      pre.map (·.id) ++ target.id :: post.map (·.id) := by
    rw [List.map_append, List.map_cons]
  have hnodup : ((pre ++ target :: post).map (·.id)).Nodup := by
    rw [← hsplit]
    refine (List.filter_sublist.map _).nodup ?_
    rwa [map_id_nodes]
  rw [hids, List.nodup_append] at hnodup
  have hbefore : target.id ∉ pre.map (·.id) :=
    fun hmem => hnodup.2.2 _ hmem _ List.mem_cons_self rfl
  have hbehind : target.id ∉ post.map (·.id) := (List.nodup_cons.1 hnodup.2.1).1
  rw [hchildren, ← map_id_childrenBut, hsplit, hids, insertBehind_split hbefore hbehind]
  simp

end Forest

/-! ### Moves by ties -/

namespace Editing

def Tie.Leads (tie : Tie) (nodes : List Node) (targetId parent : Int) : Prop :=
  ∃ target ∈ nodes, target.id = targetId ∧ tie.parent? target = some parent

/-- Where a tie puts nodes among the children of their new parent. -/
def Tie.gather (target : Int) (moved children : List Int) : Tie → List Int
  | .firstChild => moved ++ children
  | .nextSibling => insertBehind target moved children

/-- What a move that is carried out makes of a forest. -/
structure Tie.Carries (tie : Tie) (id targetId : Int) (f g : Forest Item) (parent : Int) :
    Prop where
  ids : g.ids.Perm f.ids
  has : f.has id = true
  ne : targetId ≠ id
  leads : tie.Leads f.nodes targetId parent
  parents : ∀ a b, IsParent g.nodes a b ↔ (b = id ∧ a = parent) ∨ (b ≠ id ∧ IsParent f.nodes a b)
  above : ∀ a, TransGen (IsParent g.nodes) a targetId ↔ TransGen (IsParent f.nodes) a targetId
  children : childIds g.nodes parent =
    tie.gather targetId [id] ((childIds f.nodes parent).filter fun i => decide (i ≠ id))

variable {f g : Forest Item} {tie : Tie} {node target : Node} {id targetId parent : Int}

theorem Tie.target_outside (hn : node ∈ f.nodes) (ht : target ∈ f.nodes)
    (hp : (tie.anchor target.bounds).pivot < node.left ∨
      node.right < (tie.anchor target.bounds).pivot) :
    target ≠ node ∧ ¬node.bounds.contains target.bounds = true := by
  have hnode := (Forest.bounds_of_mem_nodes hn).2
  have htarget := (Forest.bounds_of_mem_nodes ht).2
  rw [Bounds.contains_iff]
  constructor
  · rintro rfl
    cases tie <;> simp only [anchor, Anchor.pivot, Node.bounds] at hp <;> omega
  · cases tie <;> simp only [anchor, Anchor.pivot, Node.bounds] at hp ⊢ <;> omega

theorem Tie.childIds_rotated {tie : Tie} (hf : f.ids.Nodup) (hn : node ∈ f.nodes)
    (ht : target ∈ f.nodes) (hparent : tie.parent? target = some parent)
    (hp : (tie.anchor target.bounds).pivot < node.left ∨
      node.right < (tie.anchor target.bounds).pivot)
    (h : g.nodes.Perm (f.nodes.map (node.rotated parent (tie.anchor target.bounds).pivot))) :
    childIds g.nodes parent = tie.gather target.id [node.id]
      ((childIds f.nodes parent).filter fun i => decide (i ≠ node.id)) := by
  obtain ⟨hne, hnot⟩ := tie.target_outside hn ht hp
  cases tie with
  | firstChild =>
    obtain rfl : target.id = parent := Option.some.inj hparent
    exact Forest.childIds_rotated_below hf hn ht hne hnot hp h
  | nextSibling => exact Forest.childIds_rotated_behind hf hn ht hne hnot hparent hp h

theorem Tie.exists_carries (hf : f.ids.Nodup)
    (h : f.transplant id (tie.placement targetId) = .ok (.moved, g)) :
    ∃ parent, tie.Carries id targetId f g parent := by
  obtain ⟨node, hn, target, ht, parent, rfl, rfl, hparent, hp, hperm⟩ :=
    Tie.exists_of_transplant hf h
  obtain ⟨hne, hnot⟩ := tie.target_outside hn ht hp
  have hid : target.id ≠ node.id := fun he => hne (Forest.eq_of_mem_nodes hf ht hn he)
  refine ⟨parent, Forest.ids_rotated hperm, Forest.has_of_mem_nodes hn, hid,
    ⟨target, ht, rfl, hparent⟩, fun a b => Forest.isParent_rotated hn hperm,
    Forest.transGen_rotated hn hperm hid ?_, tie.childIds_rotated hf hn ht hparent hp hperm⟩
  rwa [Forest.transGen_isParent_iff hf hn ht]

/-- Two forests that hold the same ids and agree on what is above a target. -/
structure AgreeAbove (target : Int) (f g : Forest Item) : Prop where
  has : ∀ id, g.has id = f.has id
  above : ∀ a, TransGen (IsParent g.nodes) a target ↔ TransGen (IsParent f.nodes) a target

theorem Tie.Carries.agreeAbove (h : tie.Carries id targetId f g parent) :
    AgreeAbove targetId f g := by
  refine ⟨?_, h.above⟩
  intro i
  rw [Bool.eq_iff_iff, Forest.has_iff, Forest.has_iff, h.ids.mem_iff]

theorem isOutermost_iff (hf : f.ids.Nodup) (ht : target ∈ f.nodes) :
    f.isOutermost target.id = true ↔ ¬∃ a, TransGen (IsParent f.nodes) a target.id := by
  rw [Forest.isOutermost_of_mem_nodes hf ht, Option.isNone_iff_eq_none]
  constructor
  · rintro hnone ⟨a, ha⟩
    obtain ⟨c, -, n, hn, hid, hp⟩ := TransGen.tail'_iff.1 ha
    rw [Forest.eq_of_mem_nodes hf hn ht hid, hnone] at hp
    cases hp
  · intro hall
    cases hp : target.parent with
    | none => rfl
    | some a => exact absurd ⟨a, .single ⟨target, ht, rfl, hp⟩⟩ hall

theorem treeAt?_has_iff (hf : f.ids.Nodup) (hn : node ∈ f.nodes) (ht : target ∈ f.nodes)
    (hne : target.id ≠ node.id) :
    ∃ subtree, f.treeAt? (Item.is node.id) = some subtree ∧
      (subtree.has target.id = true ↔ TransGen (IsParent f.nodes) node.id target.id) := by
  obtain ⟨children, site, -, htree, hr, hg⟩ := Forest.exists_cut hf hn
  refine ⟨_, htree, ?_⟩
  rw [Forest.transGen_isParent_iff hf hn ht]
  obtain ⟨hin, hhas⟩ | ⟨hout, hhas, -⟩ := target_inside_or_outside hf hg hr ht hne
  · rw [hin, hhas]
  · rw [hout, hhas]

/-- What a move answers is known from the ids there are and from what is above its target. -/
theorem Tie.transplant_congr (tie : Tie) (hf : f.ids.Nodup) (hg : g.ids.Nodup)
    (h : AgreeAbove targetId f g) (id : Int) :
    (g.transplant id (tie.placement targetId)).map Prod.fst =
      (f.transplant id (tie.placement targetId)).map Prod.fst := by
  by_cases hne : targetId = id
  · rw [hne, tie.transplant_self, tie.transplant_self]
    rfl
  rw [tie.transplant_eq hne, tie.transplant_eq hne]
  unfold Forest.cutting
  rw [h.has targetId]
  by_cases htarget : f.has targetId = true
  · have htarget' : g.has targetId = true := by rw [h.has, htarget]
    obtain ⟨target, ht, rfl⟩ := Forest.exists_of_has htarget
    obtain ⟨target', ht', hsame⟩ := Forest.exists_of_has htarget'
    have houter : g.isOutermost target.id = f.isOutermost target.id := by
      rw [Bool.eq_iff_iff, ← hsame, isOutermost_iff hg ht', hsame, isOutermost_iff hf ht]
      simp only [h.above]
    rw [if_pos htarget, if_pos htarget, houter]
    by_cases hid : f.has id = true
    · have hid' : g.has id = true := by rw [h.has, hid]
      obtain ⟨node, hn, rfl⟩ := Forest.exists_of_has hid
      obtain ⟨node', hn', hnode⟩ := Forest.exists_of_has hid'
      obtain ⟨subtree, htree, hhas⟩ := treeAt?_has_iff hf hn ht hne
      obtain ⟨subtree', htree', hhas'⟩ := treeAt?_has_iff hg hn' ht' (by rwa [hsame, hnode])
      rw [hsame, hnode] at hhas'
      rw [hnode] at htree'
      have hbelow : subtree'.has target.id = subtree.has target.id := by
        rw [Bool.eq_iff_iff, hhas, hhas', h.above]
      simp only [htree, htree', hbelow]
      cases subtree.has target.id with
      | true => rfl
      | false =>
        simp only [Bool.false_eq_true, if_false]
        split <;> rfl
    · have hmissing : f.has id = false := by simpa using hid
      have hmissing' : g.has id = false := by rw [h.has, hmissing]
      rw [Forest.treeAt?_isNone hmissing, Forest.treeAt?_isNone hmissing']
  · rw [if_neg htarget, if_neg htarget]

end Editing

end NestedSet
