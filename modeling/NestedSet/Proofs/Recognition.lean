import Mathlib
import NestedSet.Proofs.Numbering
import NestedSet.Proofs.Sweep

/-!
# The check recognises the numberings of ordered trees

From shapes without a violation the tree is read off: the first shape is the
root, those whose left markers lie inside it are its children's, the others
follow. The other way a numbering passes each part of the check.
-/

set_option autoImplicit false

namespace NestedSet.Nesting

theorem left_mem_markers {l : List Shape} {x : Shape} (h : x ∈ l) :
    x.bounds.left ∈ l.flatMap (·.bounds.markers) :=
  List.mem_flatMap.2 ⟨x, h, by simp [Bounds.markers]⟩

theorem length_markers (l : List Shape) : (l.flatMap (·.bounds.markers)).length = 2 * l.length := by
  induction l with
  | nil => rfl
  | cons x l ih =>
    rw [List.flatMap_cons, List.length_append, ih]
    simp only [Bounds.markers, List.length_cons, List.length_nil]
    omega

/-! ### From shapes to the tree -/

theorem right_lt_of_scan_eq_nil (since : List Shape) {before l : List Shape} {node : Shape}
    (hs : ∀ o ∈ since, o.bounds.right < node.bounds.right)
    (hl : ∀ x ∈ l, x.bounds.left < node.bounds.right)
    (h : scan (since ++ node :: before) l = []) :
    ∀ x ∈ l, x.bounds.right < node.bounds.right := by
  induction l generalizing since with
  | nil => simp
  | cons x rest ih =>
    simp only [scan, List.append_eq_nil_iff] at h
    obtain ⟨hx, hrest⟩ := h
    have hxr : x.bounds.right < node.bounds.right := by
      have hc := (enclosureFaults_eq_nil_iff.1 hx).1
      unfold reaching at hc
      rw [List.find?_append] at hc
      cases hf : since.find? (fun o => decide (x.bounds.left ≤ o.bounds.right)) with
      | some o =>
        have ho := Bounds.contains_iff.1 (hc o (by rw [hf, Option.some_or]))
        have := hs o (List.mem_of_find?_eq_some hf)
        omega
      | none =>
        have hn : decide (x.bounds.left ≤ node.bounds.right) = true :=
          decide_eq_true (Int.le_of_lt (hl x List.mem_cons_self))
        have ho := Bounds.contains_iff.1 (hc node (by rw [hf, Option.none_or, List.find?_cons, hn]))
        omega
    have hr := ih (x :: since)
      (by
        intro o ho
        rcases List.mem_cons.1 ho with rfl | ho
        · exact hxr
        · exact hs o ho)
      (fun y hy => hl y (List.mem_cons_of_mem _ hy)) hrest
    intro y hy
    rcases List.mem_cons.1 hy with rfl | hy
    · exact hxr
    · exact hr y hy

theorem exists_split_at {l : List Shape} (hs : l.Pairwise fun a b => a.bounds.left < b.bounds.left)
    (e : Int) : ∃ inner outer, l = inner ++ outer ∧ (∀ x ∈ inner, x.bounds.left < e) ∧
      ∀ x ∈ outer, e ≤ x.bounds.left := by
  induction l with
  | nil => exact ⟨[], [], rfl, by simp, by simp⟩
  | cons x rest ih =>
    obtain ⟨hx, hrest⟩ := List.pairwise_cons.1 hs
    by_cases he : x.bounds.left < e
    · obtain ⟨inner, outer, rfl, hi, ho⟩ := ih hrest
      refine ⟨x :: inner, outer, rfl, ?_, ho⟩
      intro y hy
      rcases List.mem_cons.1 hy with rfl | hy
      · exact he
      · exact hi y hy
    · refine ⟨[], x :: rest, rfl, by simp, ?_⟩
      intro y hy
      rcases List.mem_cons.1 hy with rfl | hy
      · omega
      · have := hx y hy
        omega

theorem left_eq_next {node : Shape} {rest : List Shape} {next : Int} {k : Nat}
    (hs : ∀ x ∈ rest, node.bounds.left < x.bounds.left)
    (hp : ∀ x ∈ node :: rest, x.bounds.left < x.bounds.right)
    (hm : ((node :: rest).flatMap (·.bounds.markers)).Perm (upFrom next (k + 1))) :
    node.bounds.left = next := by
  have hle : ∀ x ∈ node :: rest, node.bounds.left ≤ x.bounds.left := by
    intro x hx
    rcases List.mem_cons.1 hx with rfl | hx
    · exact Int.le_refl _
    · exact Int.le_of_lt (hs x hx)
  have hfirst : next ≤ node.bounds.left :=
    (mem_upFrom.1 (hm.mem_iff.1 (left_mem_markers List.mem_cons_self))).1
  have hnext : next ∈ (node :: rest).flatMap (·.bounds.markers) :=
    hm.mem_iff.2 (mem_upFrom.2 ⟨Int.le_refl _, by omega⟩)
  obtain ⟨x, hx, hxm⟩ := List.mem_flatMap.1 hnext
  have := hle x hx
  have := hp x hx
  simp only [Bounds.markers, List.mem_cons, List.not_mem_nil, or_false] at hxm
  omega

/-- The markers inside the first interval and those behind it, each without a gap. -/
theorem markers_split {node : Shape} {inner outer : List Shape} {next : Int} {k : Nat}
    (hleft : node.bounds.left = next) (hp : ∀ x ∈ outer, x.bounds.left < x.bounds.right)
    (hi : ∀ x ∈ inner, x.bounds.left < x.bounds.right ∧ x.bounds.right < node.bounds.right)
    (ho : ∀ x ∈ outer, node.bounds.right ≤ x.bounds.left)
    (hm : ((node :: (inner ++ outer)).flatMap (·.bounds.markers)).Perm (upFrom next (k + 1))) :
    node.bounds.right = next + 2 * inner.length + 1 ∧
      (inner.flatMap (·.bounds.markers)).Perm (upFrom (next + 1) (2 * inner.length)) ∧
      (outer.flatMap (·.bounds.markers)).Perm
        (upFrom (node.bounds.right + 1) (2 * outer.length)) := by
  have hperm : (inner.flatMap (·.bounds.markers) ++
      node.bounds.right :: outer.flatMap (·.bounds.markers)).Perm (upFrom (next + 1) k) := by
    rw [List.flatMap_cons, List.flatMap_append, upFrom] at hm
    simp only [Bounds.markers, List.cons_append, List.nil_append, hleft] at hm
    exact List.perm_middle.trans ((List.perm_cons next).1 hm)
  have hin : ∀ m ∈ inner.flatMap (·.bounds.markers), m < node.bounds.right := by
    intro m hm
    obtain ⟨x, hx, hxm⟩ := List.mem_flatMap.1 hm
    have := hi x hx
    simp only [Bounds.markers, List.mem_cons, List.not_mem_nil, or_false] at hxm
    omega
  have hout : ∀ m ∈ node.bounds.right :: outer.flatMap (·.bounds.markers),
      node.bounds.right ≤ m := by
    intro m hm
    rcases List.mem_cons.1 hm with rfl | hm
    · exact Int.le_refl _
    · obtain ⟨x, hx, hxm⟩ := List.mem_flatMap.1 hm
      have := ho x hx
      have := hp x hx
      simp only [Bounds.markers, List.mem_cons, List.not_mem_nil, or_false] at hxm
      omega
  obtain ⟨h1, h2⟩ := perm_upFrom_split hperm hin hout
  rw [length_markers] at h1 h2
  rw [List.length_cons, length_markers] at h2
  have hright : node.bounds.right = next + 2 * inner.length + 1 := by
    have hge := (mem_upFrom.1 (h2.mem_iff.1 List.mem_cons_self)).1
    have hle := hout _ (h2.mem_iff.2 (mem_upFrom.2 ⟨Int.le_refl _, by omega⟩))
    omega
  refine ⟨hright, h1, ?_⟩
  have hstart : next + 1 + ((2 * inner.length : Nat) : Int) = node.bounds.right := by omega
  rw [hstart, upFrom] at h2
  exact (List.perm_cons _).1 h2

/-- Shapes that pass the sweep and use each marker of a range once are the walk of a forest. -/
theorem exists_walk_eq {l before : List Shape} {parent : Option Int} {next : Int}
    (hs : l.Pairwise fun a b => a.bounds.left < b.bounds.left)
    (hp : ∀ x ∈ l, x.bounds.left < x.bounds.right)
    (hm : (l.flatMap (·.bounds.markers)).Perm (upFrom next (2 * l.length)))
    (hb : ∀ m, next ≤ m → m < next + 2 * l.length → (reaching before m).map (·.id) = parent)
    (h : scan before l = []) :
    ∃ f : Forest Int, l = (f.walk parent next).map Visit.shape := by
  induction hn : l.length using Nat.strong_induction_on generalizing l before parent next with
  | _ n ih =>
    cases l with
    | nil => exact ⟨.nil, rfl⟩
    | cons node rest =>
      obtain ⟨hfirst, hrest⟩ := List.pairwise_cons.1 hs
      have hlen : 2 * (node :: rest).length = (2 * rest.length + 1) + 1 := by
        simp only [List.length_cons]
        omega
      have hleft := left_eq_next (k := 2 * rest.length + 1) hfirst hp (hlen ▸ hm)
      obtain ⟨inner, outer, rfl, hi, ho⟩ := exists_split_at hrest node.bounds.right
      simp only [scan, scan_append, List.append_eq_nil_iff] at h
      obtain ⟨hnode, hinner, houter⟩ := h
      have hright := right_lt_of_scan_eq_nil [] (by simp) hi hinner
      have hpi : ∀ x ∈ inner, x.bounds.left < x.bounds.right := fun x hx =>
        hp x (List.mem_cons_of_mem _ (List.mem_append_left _ hx))
      have hpo : ∀ x ∈ outer, x.bounds.left < x.bounds.right := fun x hx =>
        hp x (List.mem_cons_of_mem _ (List.mem_append_right _ hx))
      obtain ⟨hend, hmi, hmo⟩ :=
        markers_split hleft hpo (fun x hx => ⟨hpi x hx, hright x hx⟩) ho (hlen ▸ hm)
      simp only [List.length_cons, List.length_append] at hn hb
      obtain ⟨below, hbelow⟩ := @ih inner.length (by omega) inner (node :: before)
        (some node.id) (next + 1) (List.pairwise_append.1 hrest).1 hpi hmi
        (by
          intro m _ hm
          rw [reaching_cons_of_le (by omega), Option.map_some])
        hinner rfl
      obtain ⟨beside, hbeside⟩ := @ih outer.length (by omega) outer
        (inner.reverse ++ node :: before) parent (node.bounds.right + 1)
        (List.pairwise_append.1 hrest).2.1 hpo hmo
        (by
          intro m hm1 hm2
          rw [reaching_append_of_lt (by
              intro o ho
              have := hright o (List.mem_reverse.1 ho)
              omega),
            reaching_cons_of_lt (by omega)]
          exact hb m (by omega) (by omega))
        houter rfl
      have hsize : (below.size : Int) = inner.length := by
        rw [hbelow, List.length_map, Forest.length_walk]
      have hparent : node.parent = parent := by
        rw [(enclosureFaults_eq_nil_iff.1 hnode).2, hb _ (by omega) (by omega)]
      refine ⟨.tree node.id below beside, ?_⟩
      simp only [Forest.walk, List.map_cons, List.map_append, hsize, ← hend, ← hbelow, ← hbeside]
      rw [← hparent, ← hleft]
      rfl

/-! ### From the tree to its shapes -/

theorem scan_walk {f : Forest Int} {before : List Shape} {parent : Option Int} {next : Int}
    (outer : Option Shape) (hp : outer.map (·.id) = parent)
    (ho : ∀ o, outer = some o → o.bounds.left < next ∧ f.walkEnd next ≤ o.bounds.right)
    (hb : ∀ m, next ≤ m → m < f.walkEnd next → reaching before m = outer) :
    scan before ((f.walk parent next).map Visit.shape) = [] := by
  induction f generalizing before parent next outer with
  | nil => rfl
  | tree a children rest ihc ihr =>
    have hend : (Forest.tree a children rest).walkEnd next =
        next + 2 * children.size + 1 + 1 + 2 * rest.size := by
      simp only [Forest.walkEnd, Forest.size]
      omega
    rw [hend] at ho hb
    simp only [Forest.walk, List.map_cons, List.map_append, scan, scan_append,
      List.append_eq_nil_iff]
    refine ⟨?_, ?_, ?_⟩
    · rw [show (Visit.shape ⟨a, ⟨next, next + 2 * children.size + 1⟩, parent⟩).bounds.left = next
        from rfl, hb next (by omega) (by omega), enclosureFaults_eq_nil_iff]
      refine ⟨?_, hp.symm⟩
      intro o hout
      have := ho o hout
      rw [Bounds.contains_iff]
      dsimp only [Visit.shape]
      omega
    · refine ihc (some ⟨a, ⟨next, next + 2 * children.size + 1⟩, parent⟩) rfl ?_ ?_
      · intro o hout
        obtain rfl := Option.some.inj hout
        simp only [Forest.walkEnd]
        omega
      · intro m _ hm
        simp only [Forest.walkEnd] at hm
        exact reaching_cons_of_le (by dsimp only [Visit.shape]; omega)
    · apply ihr outer hp
      · intro o hout
        have := ho o hout
        simp only [Forest.walkEnd]
        omega
      · intro m hm1 hm2
        simp only [Forest.walkEnd] at hm2
        rw [reaching_append_of_lt ?_, reaching_cons_of_lt (by dsimp only [Visit.shape]; omega)]
        · exact hb m (by omega) (by omega)
        · intro o ho
          obtain ⟨v, hv, rfl⟩ := List.mem_map.1 (List.mem_reverse.1 ho)
          have := Forest.bounds_of_mem_walk hv
          simp only [Forest.walkEnd, Visit.shape] at this ⊢
          omega

theorem countP_of_split {α : Type} {p : α → Bool} {l k m : List α} (h : l = k ++ m)
    (hk : ∀ a ∈ k, p a = true) (hm : ∀ a ∈ m, p a = false) : l.countP p = k.length := by
  rw [h, List.countP_append, List.countP_eq_length.2 hk,
    List.countP_eq_zero.2 (by simpa using hm), Nat.add_zero]

theorem population_walk {f : Forest Int} {parent : Option Int} {next : Int} {v : Visit Int}
    (h : v ∈ f.walk parent next) :
    v.bounds.span = (population ((f.walk parent next).map Visit.shape) v.bounds : Int) * 2 := by
  obtain ⟨children, before, after, hw, hr, hb, ha⟩ := Forest.exists_split_walk h
  have hc : ∀ u ∈ children.walk (some v.label) (v.bounds.left + 1),
      v.bounds.left < u.bounds.left ∧ u.bounds.left < v.bounds.right := by
    intro u hu
    have := Forest.bounds_of_mem_children hu
    omega
  have hleft : (f.walk parent next).countP (fun u => decide (u.bounds.left ≤ v.bounds.left)) =
      (before ++ [v]).length := by
    apply countP_of_split
      (m := children.walk (some v.label) (v.bounds.left + 1) ++ after) (by simpa using hw)
    · refine List.forall_mem_append.2 ⟨fun u hu => decide_eq_true (hb u hu).le, ?_⟩
      simp
    · refine List.forall_mem_append.2 ⟨fun u hu => ?_, fun u hu => ?_⟩
      · exact decide_eq_false (hc u hu).1.not_ge
      · have := ha u hu
        exact decide_eq_false (by omega)
  have hright : (f.walk parent next).countP (fun u => decide (u.bounds.left < v.bounds.right)) =
      (before ++ v :: children.walk (some v.label) (v.bounds.left + 1)).length := by
    apply countP_of_split (m := after) (by simpa using hw)
    · refine List.forall_mem_append.2 ⟨fun u hu => ?_, List.forall_mem_cons.2 ⟨?_, fun u hu => ?_⟩⟩
      · have := hb u hu
        exact decide_eq_true (by omega)
      · exact decide_eq_true (by omega)
      · exact decide_eq_true (hc u hu).2
    · intro u hu
      have := ha u hu
      exact decide_eq_false (by omega)
  have hpop : population ((f.walk parent next).map Visit.shape) v.bounds = children.size + 1 := by
    simp only [List.length_append, List.length_cons, List.length_nil, Forest.length_walk]
      at hleft hright
    simp only [population, List.countP_map]
    change (f.walk parent next).countP (fun u => decide (u.bounds.left < v.bounds.right)) -
      (f.walk parent next).countP (fun u => decide (u.bounds.left ≤ v.bounds.left)) + 1 = _
    omega
  rw [hpop, Bounds.span]
  omega

/-! ### The parts of the check -/

theorem precedes_trans (a b c : Shape) (hab : precedes a b = true) (hbc : precedes b c = true) :
    precedes a c = true := by
  simp only [precedes, Bool.or_eq_true, Bool.and_eq_true, decide_eq_true_eq, beq_iff_eq] at *
  omega

theorem precedes_total (a b : Shape) : (precedes a b || precedes b a) = true := by
  simp only [precedes, Bool.or_eq_true, Bool.and_eq_true, decide_eq_true_eq, beq_iff_eq]
  omega

theorem perm_sorted (nodes : List Shape) : (sorted nodes).Perm nodes := List.mergeSort_perm _ _

theorem pairwise_sorted (nodes : List Shape) :
    (sorted nodes).Pairwise fun a b => a.bounds.left ≤ b.bounds.left := by
  apply (List.pairwise_mergeSort precedes_trans precedes_total nodes).imp
  intro a b h
  simp only [precedes, Bool.or_eq_true, Bool.and_eq_true, decide_eq_true_eq, beq_iff_eq] at h
  omega

theorem sorted_eq_of_perm {nodes l : List Shape} (h : nodes.Perm l)
    (hl : l.Pairwise fun a b => a.bounds.left < b.bounds.left) : sorted nodes = l := by
  have hle : l.Pairwise fun a b => precedes a b = true := by
    apply hl.imp
    intro a b h
    simp [precedes, h]
  refine List.Perm.eq_of_pairwise ?_
    (List.pairwise_mergeSort precedes_trans precedes_total nodes) hle
    ((perm_sorted nodes).trans h)
  intro a b ha hb hab hba
  have hleft : a.bounds.left = b.bounds.left := by
    simp only [precedes, Bool.or_eq_true, Bool.and_eq_true, decide_eq_true_eq, beq_iff_eq]
      at hab hba
    omega
  have hnodup : (l.map (·.bounds.left)).Nodup := List.pairwise_map.2 (hl.imp Int.ne_of_lt)
  exact List.inj_on_of_nodup_map hnodup
    (h.mem_iff.1 ((perm_sorted nodes).mem_iff.1 ha)) hb hleft

theorem firstGap_eq_nil_iff {n : Int} {l : List Int} :
    firstGap n l = [] ↔ l = upFrom n l.length := by
  induction l generalizing n with
  | nil => simp [firstGap, upFrom]
  | cons m l ih =>
    rw [firstGap, List.length_cons, upFrom]
    by_cases h : m = n
    · rw [if_pos h, ih, h]
      simp
    · simp [h]

theorem pairwise_left_lt_of_perm {l : List Shape} {n : Int} {k : Nat}
    (hs : l.Pairwise fun a b => a.bounds.left ≤ b.bounds.left)
    (hm : (l.flatMap (·.bounds.markers)).Perm (upFrom n k)) :
    l.Pairwise fun a b => a.bounds.left < b.bounds.left := by
  have hnodup : (l.flatMap (·.bounds.markers)).Nodup :=
    hm.nodup_iff.2 ((pairwise_upFrom n k).imp Int.ne_of_lt)
  apply (hs.and (List.nodup_flatMap.1 hnodup).2).imp
  intro a b ⟨hle, hdisjoint⟩
  have hne : a.bounds.left ≠ b.bounds.left := by
    intro h
    exact @hdisjoint a.bounds.left (by simp [Bounds.markers]) (by simp [Bounds.markers, h])
  omega

theorem filter_parent_shapes (f : Forest Int) :
    (f.shapes.filter fun n => n.parent.isNone).map (·.id) = f.roots := by
  rw [← Forest.filter_parent_walk f 1, Forest.shapes, List.filter_map, List.map_map]
  rfl

theorem length_roots_of_rootFaults {l : List Shape} (h : rootFaults l = []) :
    (l.filter fun n => n.parent.isNone).length = 1 := by
  simp only [rootFaults, List.append_eq_nil_iff] at h
  by_contra hne
  simp [hne] at h

/-! ### Each part of the check on a tree -/

theorem pairwise_left_shapes (f : Forest Int) :
    f.shapes.Pairwise fun a b => a.bounds.left < b.bounds.left :=
  List.pairwise_map.2 (Forest.pairwise_left_walk f none 1)

theorem emptyIntervals_shapes (f : Forest Int) : emptyIntervals f.shapes = [] := by
  rw [emptyIntervals, List.map_eq_nil_iff, List.filter_eq_nil_iff]
  intro x hx
  obtain ⟨v, hv, rfl⟩ := List.mem_map.1 hx
  have := Forest.bounds_of_mem_walk hv
  simp only [decide_eq_true_eq]
  omega

theorem sweep_shapes (f : Forest Int) : sweep [] f.shapes = [] := by
  rw [sweep_eq_scan ((pairwise_left_shapes f).imp Int.le_of_lt)]
  exact scan_walk none rfl (by simp) fun _ _ _ => rfl

theorem spanMismatches_shapes (f : Forest Int) : spanMismatches f.shapes = [] := by
  rw [spanMismatches, List.filterMap_eq_nil_iff]
  intro x hx
  obtain ⟨v, hv, rfl⟩ := List.mem_map.1 hx
  exact if_pos (population_walk hv)

theorem rootFaults_shapes (id : Int) (children : Forest Int) :
    rootFaults (Forest.tree id children .nil).shapes = [] := by
  have hc : (children.walk (some id) 2).filter (fun v => v.parent.isNone) = [] := by
    rw [List.filter_eq_nil_iff]
    intro v hv
    have := Forest.parent_of_mem_walk hv
    simpa [Option.isSome_iff_ne_none] using this
  have hroots : (Forest.tree id children .nil).shapes.filter (fun n => n.parent.isNone) =
      [⟨id, ⟨1, 1 + 2 * children.size + 1⟩, none⟩] := by
    have hf : (fun n : Shape => n.parent.isNone) ∘ (fun v : Visit Int =>
        (⟨v.label, v.bounds, v.parent⟩ : Shape)) = fun v => v.parent.isNone := rfl
    rw [Forest.shapes, List.filter_map, hf]
    simp only [Forest.walk, List.filter_cons, List.filter_append, Option.isNone_none, if_true]
    rw [show (1 : Int) + 1 = 2 from rfl, hc]
    simp
  simp [rootFaults, hroots]

theorem markers_shapes (f : Forest Int) :
    (f.shapes.flatMap (·.bounds.markers)).Perm (upFrom 1 (2 * f.size)) := by
  rw [Forest.shapes, List.flatMap_map]
  exact Forest.markers_walk f none 1

theorem firstGap_markers_shapes (f : Forest Int) : firstGap 1 (markers f.shapes) = [] := by
  have h : markers f.shapes = upFrom 1 (2 * f.size) :=
    eq_upFrom_of_perm (pairwise_inOrder _) ((perm_inOrder _).trans (markers_shapes f))
  rw [firstGap_eq_nil_iff, h, length_upFrom]

end NestedSet.Nesting

namespace NestedSet

open Nesting

theorem violations_eq_nil_of_perm {nodes : List Shape} {id : Int} {children : Forest Int}
    (h : nodes.Perm (Forest.tree id children .nil).shapes) : violations nodes = [] := by
  rw [violations, sorted_eq_of_perm h (pairwise_left_shapes _)]
  simp only [emptyIntervals_shapes, sweep_shapes, spanMismatches_shapes, rootFaults_shapes,
    firstGap_markers_shapes, List.append_nil, ite_self]

theorem exists_tree_of_violations_eq_nil {nodes : List Shape} (hn : nodes ≠ [])
    (h : violations nodes = []) :
    ∃ (id : Int) (children : Forest Int), nodes.Perm (Forest.tree id children .nil).shapes := by
  have he : nodes.isEmpty = false := by simpa using hn
  simp only [violations, he, Bool.false_eq_true, if_false, List.append_eq_nil_iff] at h
  obtain ⟨⟨⟨⟨hempty, hsweep⟩, _⟩, hroots⟩, hgap⟩ := h
  have hmarkers : ((sorted nodes).flatMap (·.bounds.markers)).Perm
      (upFrom 1 (2 * (sorted nodes).length)) := by
    have hup := firstGap_eq_nil_iff.1 hgap
    have hlen : (markers (sorted nodes)).length = 2 * (sorted nodes).length :=
      (perm_inOrder _).length_eq.trans (length_markers _)
    rw [hlen] at hup
    exact (perm_inOrder _).symm.trans (hup ▸ List.Perm.refl _)
  have hle := pairwise_sorted nodes
  have hproper : ∀ x ∈ sorted nodes, x.bounds.left < x.bounds.right := by
    rw [emptyIntervals, List.map_eq_nil_iff, List.filter_eq_nil_iff] at hempty
    intro x hx
    have := hempty x hx
    simp only [decide_eq_true_eq] at this
    omega
  obtain ⟨f, hf⟩ := exists_walk_eq (pairwise_left_lt_of_perm hle hmarkers) hproper hmarkers
    (fun _ _ _ => rfl) ((sweep_eq_scan hle) ▸ hsweep)
  have hfs : sorted nodes = f.shapes := hf
  have hone : f.roots.length = 1 := by
    rw [← filter_parent_shapes, List.length_map, ← hfs]
    exact length_roots_of_rootFaults hroots
  cases f with
  | nil => simp [Forest.roots] at hone
  | tree id children rest =>
    cases rest with
    | nil => exact ⟨id, children, (perm_sorted nodes).symm.trans (hfs ▸ .refl _)⟩
    | tree => simp [Forest.roots] at hone

/-- Nothing is wrong with shapes exactly if there are none, or they are, in whatever order,
the numbering of one ordered tree. -/
theorem violations_eq_nil_iff (nodes : List Shape) :
    violations nodes = [] ↔
      nodes = [] ∨ ∃ (id : Int) (children : Forest Int),
        nodes.Perm (Forest.tree id children .nil).shapes := by
  constructor
  · intro h
    by_cases hn : nodes = []
    · exact .inl hn
    · exact .inr (exists_tree_of_violations_eq_nil hn h)
  · rintro (rfl | ⟨id, children, hperm⟩)
    · rfl
    · exact violations_eq_nil_of_perm hperm

end NestedSet
