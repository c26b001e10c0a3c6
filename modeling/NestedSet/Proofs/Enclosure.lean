import Mathlib
import NestedSet.Proofs.Listing
import NestedSet.Proofs.Planting

/-!
# Intervals and recorded parents

In the walk of a forest the recorded parent of a node is the innermost node
around it. So to lie inside a node is to be reached from it by one or more
steps from parent to child, and the nodes around a node are its chain of
parents.
-/

set_option autoImplicit false

namespace NestedSet

namespace Forest

variable {α : Type}

/-- Around a visit there is nothing, at the outermost level, or its parent, and whatever else is
around it is around its parent. -/
def Enclosed (visits : List (Visit α)) (parent : Option α) (v : Visit α) : Prop :=
  (v.parent = parent ∧ ∀ w ∈ visits, ¬w.bounds.contains v.bounds = true) ∨
    ∃ u ∈ visits, v.parent = some u.label ∧ u.bounds.contains v.bounds = true ∧
      ∀ w ∈ visits, w.bounds.contains v.bounds = true →
        w = u ∨ w.bounds.contains u.bounds = true

section

variable {a : α} {children rest : Forest α} {parent : Option α} {next : Int} {v : Visit α}

theorem Enclosed.of_children (hv : v ∈ children.walk (some a) (next + 1))
    (h : Enclosed (children.walk (some a) (next + 1)) (some a) v) :
    Enclosed ((tree a children rest).walk parent next) parent v := by
  have hvin := bounds_of_mem_children hv
  have hbehind : ∀ w ∈ rest.walk parent (next + 2 * children.size + 1 + 1),
      ¬w.bounds.contains v.bounds = true := by
    intro w hw
    have := bounds_of_mem_rest hw
    rw [Bounds.contains_iff]
    omega
  simp only [walk, Enclosed, List.mem_cons, List.mem_append]
  obtain ⟨hparent, hnone⟩ | ⟨u, hu, hparent, huv, hinner⟩ := h
  · refine .inr ⟨_, .inl rfl, hparent, Bounds.contains_iff.2 ⟨hvin.1, hvin.2.2⟩, ?_⟩
    rintro w (rfl | hw | hw) hwv
    · exact .inl rfl
    · exact absurd hwv (hnone w hw)
    · exact absurd hwv (hbehind w hw)
  · have huin := bounds_of_mem_children hu
    refine .inr ⟨u, .inr (.inl hu), hparent, huv, ?_⟩
    rintro w (rfl | hw | hw) hwv
    · exact .inr (Bounds.contains_iff.2 ⟨huin.1, huin.2.2⟩)
    · exact hinner w hw hwv
    · exact absurd hwv (hbehind w hw)

theorem Enclosed.of_rest (hv : v ∈ rest.walk parent (next + 2 * children.size + 1 + 1))
    (h : Enclosed (rest.walk parent (next + 2 * children.size + 1 + 1)) parent v) :
    Enclosed ((tree a children rest).walk parent next) parent v := by
  have hvb := bounds_of_mem_rest hv
  have hfirst : ¬(⟨next, next + 2 * children.size + 1⟩ : Bounds).contains v.bounds = true := by
    rw [Bounds.contains_iff]
    dsimp only
    omega
  have hbelow : ∀ w ∈ children.walk (some a) (next + 1), ¬w.bounds.contains v.bounds = true := by
    intro w hw
    have := bounds_of_mem_children hw
    rw [Bounds.contains_iff]
    omega
  simp only [walk, Enclosed, List.mem_cons, List.mem_append]
  obtain ⟨hparent, hnone⟩ | ⟨u, hu, hparent, huv, hinner⟩ := h
  · refine .inl ⟨hparent, ?_⟩
    rintro w (rfl | hw | hw)
    · exact hfirst
    · exact hbelow w hw
    · exact hnone w hw
  · refine .inr ⟨u, .inr (.inr hu), hparent, huv, ?_⟩
    rintro w (rfl | hw | hw) hwv
    · exact absurd hwv hfirst
    · exact absurd hwv (hbelow w hw)
    · exact hinner w hw hwv

end

theorem enclosed_walk {f : Forest α} {parent : Option α} {next : Int} {v : Visit α}
    (h : v ∈ f.walk parent next) : Enclosed (f.walk parent next) parent v := by
  induction f generalizing parent next with
  | nil => cases h
  | tree a children rest ihc ihr =>
    rcases List.mem_cons.1 h with rfl | h
    · -- no interval of the walk begins before the first
      have hsorted := pairwise_left_walk (tree a children rest) parent next
      have hfirst := (List.pairwise_cons.1 hsorted).1
      refine .inl ⟨rfl, fun w hw => ?_⟩
      rw [Bounds.contains_iff]
      rcases List.mem_cons.1 hw with rfl | hw
      · exact fun hin => Int.lt_irrefl _ hin.1
      · exact fun hin => Int.lt_asymm hin.1 (hfirst w hw)
    · rcases List.mem_append.1 h with h | h
      · exact .of_children h (ihc h)
      · exact .of_rest h (ihr h)

/-! ### The nodes of a forest -/

variable {f : Forest Item} {m n : Node}

/-- The parent of a node is the innermost node around it. -/
theorem enclosed_nodes (hn : n ∈ f.nodes) :
    (n.parent = none ∧ ∀ m ∈ f.nodes, ¬m.bounds.contains n.bounds = true) ∨
      ∃ u ∈ f.nodes, n.parent = some u.id ∧ u.bounds.contains n.bounds = true ∧
        ∀ m ∈ f.nodes, m.bounds.contains n.bounds = true →
          m = u ∨ m.bounds.contains u.bounds = true := by
  obtain ⟨v, hv, rfl⟩ := exists_visit hn
  obtain ⟨hparent, hnone⟩ | ⟨u, hu, hparent, huv, hinner⟩ := enclosed_walk hv
  · refine .inl ⟨by simp [Visit.node, hparent], ?_⟩
    intro m hm
    obtain ⟨w, hw, rfl⟩ := exists_visit hm
    exact hnone w hw
  · refine .inr ⟨u.node, List.mem_map_of_mem hu, by simp [Visit.node, hparent], huv, ?_⟩
    intro m hm hmv
    obtain ⟨w, hw, rfl⟩ := exists_visit hm
    exact (hinner w hw hmv).imp (congrArg Visit.node) id

theorem nodup_nodes (f : Forest Item) : f.nodes.Nodup := by
  refine f.pairwise_left_nodes.imp ?_
  rintro a _ hab rfl
  exact Int.lt_irrefl _ hab

theorem eq_of_left (hm : m ∈ f.nodes) (hn : n ∈ f.nodes) (h : m.left = n.left) : m = n :=
  List.inj_on_of_nodup_map (f := fun n : Node => n.left)
    (List.pairwise_map.2 (f.pairwise_left_nodes.imp Int.ne_of_lt)) hm hn h

theorem markers_nodes (f : Forest Item) :
    (f.nodes.flatMap fun n => [n.left, n.right]).Perm (upFrom 1 (2 * f.size)) := by
  rw [nodes_eq, List.flatMap_map]
  exact f.markers_walk none 1

theorem disjoint_markers (hm : m ∈ f.nodes) (hn : n ∈ f.nodes) (hne : m ≠ n) :
    List.Disjoint [m.left, m.right] [n.left, n.right] := by
  have hmarkers := f.markers_nodes.nodup_iff.2 ((pairwise_upFrom _ _).imp Int.ne_of_lt)
  have hapart := (List.nodup_flatMap.1 hmarkers).2
  have hsymm : Std.Symm (Function.onFun List.Disjoint fun n : Node => [n.left, n.right]) :=
    ⟨fun _ _ hab => hab.symm⟩
  exact hapart.forall hm hn hne

theorem eq_of_right (hm : m ∈ f.nodes) (hn : n ∈ f.nodes) (h : m.right = n.right) : m = n := by
  by_contra hne
  exact disjoint_markers hm hn hne (a := n.right) (by simp [h]) (by simp)

theorem left_ne_right (hm : m ∈ f.nodes) (hn : n ∈ f.nodes) : m.left ≠ n.right := by
  intro h
  by_cases he : m = n
  · have := (bounds_of_mem_nodes hn).2
    rw [he] at h
    omega
  · exact disjoint_markers hm hn he (a := n.right) (by simp [h]) (by simp)

theorem exists_holder (hn : n ∈ f.nodes) {k : Int} (hl : n.left ≤ k) (hr : k ≤ n.right) :
    ∃ m ∈ f.nodes, m.left = k ∨ m.right = k := by
  have hmem : ∀ k, k ∈ upFrom 1 (2 * f.size) ↔ ∃ m ∈ f.nodes, k = m.left ∨ k = m.right := by
    intro k
    rw [← f.markers_nodes.mem_iff]
    simp [List.mem_flatMap]
  have hfirst := mem_upFrom.1 ((hmem n.left).2 ⟨n, hn, .inl rfl⟩)
  have hlast := mem_upFrom.1 ((hmem n.right).2 ⟨n, hn, .inr rfl⟩)
  obtain ⟨m, hm, h⟩ := (hmem k).1 (mem_upFrom.2 (by omega))
  exact ⟨m, hm, h.imp Eq.symm Eq.symm⟩

theorem around_iff (hm : m ∈ f.nodes) (hn : n ∈ f.nodes) :
    m.left ≤ n.left ∧ n.right ≤ m.right ↔ m = n ∨ m.bounds.contains n.bounds = true := by
  rw [Bounds.contains_iff]
  constructor
  · intro h
    by_cases he : m = n
    · exact .inl he
    · have hleft : m.left ≠ n.left := fun hl => he (eq_of_left hm hn hl)
      have hright : m.right ≠ n.right := fun hr => he (eq_of_right hm hn hr)
      simp only [Node.bounds]
      omega
  · rintro (rfl | h)
    · omega
    · simp only [Node.bounds] at h
      omega

end Forest

def IsParent (nodes : List Node) (parent child : Int) : Prop :=
  ∃ n ∈ nodes, n.id = child ∧ n.parent = some parent

namespace Forest

variable {f : Forest Item} {m n u : Node}

/-- To lie inside a node is to be reached from it, parent by parent. -/
theorem transGen_isParent_iff (hf : f.ids.Nodup) (hm : m ∈ f.nodes) (hn : n ∈ f.nodes) :
    Relation.TransGen (IsParent f.nodes) m.id n.id ↔ m.bounds.contains n.bounds = true := by
  constructor
  · intro h
    -- each step is from a parent to a child that lies in it
    have hstep : ∀ a b, IsParent f.nodes a b → ∀ y ∈ f.nodes, y.id = b →
        ∃ x ∈ f.nodes, x.id = a ∧ x.bounds.contains y.bounds = true := by
      rintro a b ⟨z, hz, rfl, hparent⟩ y hy hyz
      obtain rfl := eq_of_mem_nodes hf hy hz hyz
      obtain ⟨hnone, -⟩ | ⟨x, hx, hparent', hxy, -⟩ := enclosed_nodes hy
      · rw [hnone] at hparent
        cases hparent
      · exact ⟨x, hx, Option.some.inj (hparent'.symm.trans hparent), hxy⟩
    have hchain : ∀ b, Relation.TransGen (IsParent f.nodes) m.id b → ∀ y ∈ f.nodes, y.id = b →
        m.bounds.contains y.bounds = true := by
      intro b hb
      induction hb with
      | single hab =>
        intro y hy hyb
        obtain ⟨x, hx, hxm, hxy⟩ := hstep _ _ hab y hy hyb
        rwa [← eq_of_mem_nodes hf hx hm hxm]
      | tail _ hbc ih =>
        intro y hy hyc
        obtain ⟨x, hx, hxb, hxy⟩ := hstep _ _ hbc y hy hyc
        exact Bounds.contains_trans (ih x hx hxb) hxy
    exact hchain n.id h n hn rfl
  · -- the parent of the inner node lies less deep than it
    induction hk : n.left.toNat using Nat.strong_induction_on generalizing n with
    | _ k ih =>
      intro h
      obtain ⟨-, hnone⟩ | ⟨u, hu, hparent, hun, hinner⟩ := enclosed_nodes hn
      · exact absurd h (hnone m hm)
      · have hlast : IsParent f.nodes u.id n.id := ⟨n, hn, rfl, hparent⟩
        rcases hinner m hm h with rfl | hmu
        · exact .single hlast
        · have hlt := (Bounds.contains_iff.1 hun).1
          have hpos := (bounds_of_mem_nodes hu).1
          simp only [Node.bounds] at hlt
          exact (ih u.left.toNat (by omega) hu rfl hmu).tail hlast

/-- Around each node the list of nodes falls into what comes before, what lies inside, and what
comes behind. -/
theorem exists_split_nodes (hn : n ∈ f.nodes) :
    ∃ before below after, f.nodes = before ++ n :: (below ++ after) ∧
      n.right = n.left + 2 * below.length + 1 ∧ (∀ m ∈ before, m.left < n.left) ∧
      (∀ m ∈ below, n.bounds.contains m.bounds = true) ∧ (∀ m ∈ after, n.right < m.left) ∧
      (below ≠ [] → ∃ m ∈ below, m.parent = some n.id) := by
  obtain ⟨v, hv, rfl⟩ := exists_visit hn
  obtain ⟨children, before, after, hwalk, hright, hbefore, hafter⟩ := exists_split_walk hv
  refine ⟨before.map Visit.node,
    (children.walk (some v.label) (v.bounds.left + 1)).map Visit.node, after.map Visit.node,
    ?_, ?_, ?_, ?_, ?_, ?_⟩
  · rw [nodes_eq, hwalk, List.map_append, List.map_cons, List.map_append]
  · rw [List.length_map, length_walk]
    exact hright
  · exact List.forall_mem_map.2 hbefore
  · refine List.forall_mem_map.2 ?_
    intro u hu
    have := bounds_of_mem_walk hu
    simp only [walkEnd] at this
    rw [Bounds.contains_iff]
    simp only [Visit.node, Node.bounds]
    omega
  · exact List.forall_mem_map.2 hafter
  · intro hne
    cases children with
    | nil => exact absurd rfl hne
    | tree a inner rest => exact ⟨_, List.mem_cons_self, rfl⟩

theorem inside_of_left (hn : n ∈ f.nodes) (hm : m ∈ f.nodes) (hl : n.left ≤ m.left)
    (hr : m.left ≤ n.right) : m = n ∨ n.bounds.contains m.bounds = true := by
  obtain ⟨before, below, after, hnodes, -, hbefore, hbelow, hafter, -⟩ := exists_split_nodes hn
  rw [hnodes, List.mem_append, List.mem_cons, List.mem_append] at hm
  rcases hm with hm | rfl | hm | hm
  · have := hbefore m hm
    omega
  · exact .inl rfl
  · exact .inr (hbelow m hm)
  · have := hafter m hm
    omega

theorem inside_or_apart (hn : n ∈ f.nodes) (hm : m ∈ f.nodes) :
    (n.left ≤ m.left ∧ m.right ≤ n.right) ∨ n.bounds.Apart m.bounds := by
  have hnb := (bounds_of_mem_nodes hn).2
  have hmb := (bounds_of_mem_nodes hm).2
  by_cases hleft : n.left ≤ m.left ∧ m.left ≤ n.right
  · exact .inl ((around_iff hn hm).2 ((inside_of_left hn hm hleft.1 hleft.2).imp_left Eq.symm))
  · by_cases hright : n.left ≤ m.right ∧ m.right ≤ n.right
    · -- the other node begins before this one and ends in it
      have hbefore : m.left < n.left := by omega
      obtain rfl | hin := inside_of_left hm hn hbefore.le hright.1
      · omega
      · rw [Bounds.contains_iff] at hin
        simp only [Node.bounds] at hin
        omega
    · refine .inr ?_
      simp only [Bounds.Apart, Node.bounds]
      omega

theorem exists_parent (hm : m ∈ f.nodes) {id : Int} (hp : m.parent = some id) :
    ∃ u ∈ f.nodes, u.id = id ∧ u.bounds.contains m.bounds = true ∧
      ∀ w ∈ f.nodes, w.bounds.contains m.bounds = true →
        w = u ∨ w.bounds.contains u.bounds = true := by
  obtain ⟨hnone, -⟩ | ⟨u, hu, hparent, hinside, hinner⟩ := enclosed_nodes hm
  · rw [hnone] at hp
    cases hp
  · exact ⟨u, hu, Option.some.inj (hparent.symm.trans hp), hinside, hinner⟩

theorem contains_of_parent (hf : f.ids.Nodup) (hm : m ∈ f.nodes) (hu : u ∈ f.nodes)
    (hp : m.parent = some u.id) : u.bounds.contains m.bounds = true ∧
      ∀ w ∈ f.nodes, w.bounds.contains m.bounds = true →
        w = u ∨ w.bounds.contains u.bounds = true := by
  obtain ⟨w, hw, hid, hinside, hinner⟩ := exists_parent hm hp
  obtain rfl := eq_of_mem_nodes hf hw hu hid
  exact ⟨hinside, hinner⟩

theorem filter_inside {before below after : List Node} (hn : n ∈ f.nodes)
    (hnodes : f.nodes = before ++ n :: (below ++ after))
    (hbefore : ∀ m ∈ before, m.left < n.left)
    (hbelow : ∀ m ∈ below, n.bounds.contains m.bounds = true)
    (hafter : ∀ m ∈ after, n.right < m.left) :
    (f.nodes.filter fun m => decide (n.left ≤ m.left) && decide (m.left ≤ n.right)) =
      n :: below := by
  have hnone : ∀ l : List Node, (∀ m ∈ l, m.left < n.left ∨ n.right < m.left) →
      (l.filter fun m => decide (n.left ≤ m.left) && decide (m.left ≤ n.right)) = [] := by
    intro l hl
    rw [List.filter_eq_nil_iff]
    intro m hm
    have := hl m hm
    simp only [Bool.and_eq_true, decide_eq_true_eq]
    omega
  have hself : (decide (n.left ≤ n.left) && decide (n.left ≤ n.right)) = true := by
    have := (bounds_of_mem_nodes hn).2
    simp only [Bool.and_eq_true, decide_eq_true_eq]
    omega
  have hall : (below.filter fun m => decide (n.left ≤ m.left) && decide (m.left ≤ n.right)) =
      below := by
    rw [List.filter_eq_self]
    intro m hm
    have hin := Bounds.contains_iff.1 (hbelow m hm)
    have hm : m ∈ f.nodes := by simp [hnodes, hm]
    have := (bounds_of_mem_nodes hm).2
    simp only [Node.bounds] at hin
    simp only [Bool.and_eq_true, decide_eq_true_eq]
    omega
  rw [hnodes, List.filter_append, hnone before fun m hm => .inl (hbefore m hm), List.nil_append,
    List.filter_cons, if_pos hself, List.filter_append, hall,
    hnone after fun m hm => .inr (hafter m hm), List.append_nil]

/-! ### The nodes around a node -/

theorem eq_of_mem_iff {l k : List Node} (hl : l.Pairwise fun a b => a.left < b.left)
    (hk : k.Pairwise fun a b => a.left < b.left) (h : ∀ n, n ∈ l ↔ n ∈ k) : l = k := by
  have hne : ∀ {a b : Node}, a.left < b.left → a ≠ b := by
    rintro a b hab rfl
    exact Int.lt_irrefl _ hab
  have hperm := (List.perm_ext_iff_of_nodup (hl.imp hne) (hk.imp hne)).2 h
  refine List.Perm.eq_of_pairwise ?_ hl hk hperm
  intro a b _ _ hab hba
  omega

def around (f : Forest Item) (n : Node) : List Node :=
  f.nodes.filter fun m => decide (m.left ≤ n.left) && decide (n.right ≤ m.right)

theorem mem_around_iff (hn : n ∈ f.nodes) :
    m ∈ f.around n ↔ m ∈ f.nodes ∧ (m = n ∨ m.bounds.contains n.bounds = true) := by
  rw [around, List.mem_filter, and_congr_right_iff]
  intro hm
  rw [← around_iff hm hn]
  simp

theorem pairwise_left_around (f : Forest Item) (n : Node) :
    (f.around n).Pairwise fun a b => a.left < b.left := f.pairwise_left_nodes.filter _

theorem around_of_root (hn : n ∈ f.nodes)
    (hnone : ∀ m ∈ f.nodes, ¬m.bounds.contains n.bounds = true) : f.around n = [n] := by
  refine eq_of_mem_iff (f.pairwise_left_around n) (List.pairwise_singleton _ _) ?_
  intro m
  rw [mem_around_iff hn, List.mem_singleton]
  constructor
  · rintro ⟨hm, rfl | hmn⟩
    · rfl
    · exact absurd hmn (hnone m hm)
  · rintro rfl
    exact ⟨hn, .inl rfl⟩

theorem around_of_parent (hn : n ∈ f.nodes) (hu : u ∈ f.nodes)
    (hun : u.bounds.contains n.bounds = true)
    (hinner : ∀ m ∈ f.nodes, m.bounds.contains n.bounds = true →
      m = u ∨ m.bounds.contains u.bounds = true) : f.around n = f.around u ++ [n] := by
  refine eq_of_mem_iff (f.pairwise_left_around n) ?_ ?_
  · refine List.pairwise_append.2 ⟨f.pairwise_left_around u, List.pairwise_singleton _ _, ?_⟩
    intro m hm k hk
    obtain rfl := List.mem_singleton.1 hk
    have hle : m.left ≤ u.left := by
      have := (List.mem_filter.1 hm).2
      simp only [Bool.and_eq_true, decide_eq_true_eq] at this
      exact this.1
    have hlt := (Bounds.contains_iff.1 hun).1
    simp only [Node.bounds] at hlt
    omega
  · intro m
    rw [List.mem_append, List.mem_singleton, mem_around_iff hn, mem_around_iff hu]
    constructor
    · rintro ⟨hm, rfl | hmn⟩
      · exact .inr rfl
      · exact .inl ⟨hm, hinner m hm hmn⟩
    · rintro (⟨hm, rfl | hmu⟩ | rfl)
      · exact ⟨hm, .inr hun⟩
      · exact ⟨hm, .inr (Bounds.contains_trans hmu hun)⟩
      · exact ⟨hn, .inl rfl⟩

end Forest

end NestedSet
