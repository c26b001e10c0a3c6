import Mathlib
import NestedSet.Forest

/-!
# The numbering of a forest

A walk uses each marker from its first to its end once. It meets the labels by
increasing left marker, and what it meets inside an interval is the walk of
the children alone.
-/

set_option autoImplicit false

namespace NestedSet

def upFrom : Int → Nat → List Int
  | _, 0 => []
  | n, k + 1 => n :: upFrom (n + 1) k

theorem length_upFrom (n : Int) (k : Nat) : (upFrom n k).length = k := by
  induction k generalizing n with
  | zero => rfl
  | succ k ih => simp [upFrom, ih]

theorem mem_upFrom {n m : Int} {k : Nat} : m ∈ upFrom n k ↔ n ≤ m ∧ m < n + k := by
  induction k generalizing n with
  | zero =>
    simp only [upFrom, List.not_mem_nil, false_iff]
    omega
  | succ k ih =>
    rw [upFrom, List.mem_cons, ih]
    omega

theorem pairwise_upFrom (n : Int) (k : Nat) : (upFrom n k).Pairwise (· < ·) := by
  induction k generalizing n with
  | zero => exact List.Pairwise.nil
  | succ k ih =>
    refine List.pairwise_cons.2 ⟨?_, ih (n + 1)⟩
    intro m hm
    have := mem_upFrom.1 hm
    omega

theorem upFrom_append (n : Int) (j k : Nat) :
    upFrom n j ++ upFrom (n + j) k = upFrom n (j + k) := by
  induction j generalizing n with
  | zero => simp [upFrom]
  | succ j ih =>
    have h : n + ((j + 1 : Nat) : Int) = n + 1 + j := by omega
    rw [show j + 1 + k = j + k + 1 by omega, upFrom, upFrom, List.cons_append, h, ih]

def inOrder (l : List Int) : List Int := l.mergeSort fun a b => decide (a ≤ b)

theorem perm_inOrder (l : List Int) : (inOrder l).Perm l := List.mergeSort_perm l _

theorem pairwise_inOrder (l : List Int) : (inOrder l).Pairwise (· ≤ ·) := by
  have := @List.pairwise_mergeSort Int (fun a b => decide (a ≤ b))
    (by intro a b c; simp only [decide_eq_true_eq]; omega)
    (by intro a b; simp only [Bool.or_eq_true, decide_eq_true_eq]; omega) l
  simpa [inOrder] using this

theorem eq_upFrom_of_perm {l : List Int} {n : Int} {k : Nat} (hs : l.Pairwise (· ≤ ·))
    (h : l.Perm (upFrom n k)) : l = upFrom n k :=
  List.Perm.eq_of_pairwise (fun _ _ _ _ => Int.le_antisymm) hs
    ((pairwise_upFrom n k).imp Int.le_of_lt) h

theorem perm_upFrom_split {l m : List Int} {n e : Int} {k : Nat}
    (h : (l ++ m).Perm (upFrom n k)) (hl : ∀ x ∈ l, x < e) (hm : ∀ x ∈ m, e ≤ x) :
    l.Perm (upFrom n l.length) ∧ m.Perm (upFrom (n + l.length) m.length) := by
  have hk : k = l.length + m.length := by
    rw [← length_upFrom n k, ← h.length_eq, List.length_append]
  have hsorted : (inOrder l ++ inOrder m).Pairwise (· ≤ ·) := by
    refine List.pairwise_append.2 ⟨pairwise_inOrder l, pairwise_inOrder m, ?_⟩
    intro a ha b hb
    have := hl a ((perm_inOrder l).mem_iff.1 ha)
    have := hm b ((perm_inOrder m).mem_iff.1 hb)
    omega
  have heq := eq_upFrom_of_perm hsorted (((perm_inOrder l).append (perm_inOrder m)).trans h)
  rw [hk, ← upFrom_append] at heq
  obtain ⟨h1, h2⟩ := List.append_inj heq (by rw [(perm_inOrder l).length_eq, length_upFrom])
  exact ⟨h1 ▸ (perm_inOrder l).symm, h2 ▸ (perm_inOrder m).symm⟩

def Bounds.markers (b : Bounds) : List Int := [b.left, b.right]

def Visit.shape (v : Visit Int) : Shape := ⟨v.label, v.bounds, v.parent⟩

namespace Forest

variable {α : Type}

theorem markers_walk (f : Forest α) (parent : Option α) (next : Int) :
    ((f.walk parent next).flatMap (·.bounds.markers)).Perm (upFrom next (2 * f.size)) := by
  induction f generalizing parent next with
  | nil => exact List.Perm.refl _
  | tree a children rest ihc ihr =>
    have hc := ihc (some a) (next + 1)
    have hr := ihr parent (next + 2 * children.size + 1 + 1)
    have h : upFrom next (2 * (tree a children rest).size) =
        next :: (upFrom (next + 1) (2 * children.size) ++
          (next + 2 * children.size + 1) ::
            upFrom (next + 2 * children.size + 1 + 1) (2 * rest.size)) := by
      have hs : 2 * (tree a children rest).size =
          2 * children.size + (2 * rest.size + 1) + 1 := by
        simp only [size]
        omega
      rw [hs, upFrom, ← upFrom_append, upFrom]
      have he : next + 1 + ((2 * children.size : Nat) : Int) = next + 2 * children.size + 1 := by
        omega
      rw [he]
    rw [h, walk, List.flatMap_cons, List.flatMap_append]
    simp only [Bounds.markers, List.cons_append, List.nil_append]
    apply List.Perm.cons
    exact ((hc.append hr).cons _).trans List.perm_middle.symm

section

variable {a : α} {children rest : Forest α} {parent : Option α} {next : Int} {v : Visit α}

theorem bounds_of_mem_children (h : v ∈ children.walk (some a) (next + 1)) :
    next < v.bounds.left ∧ v.bounds.left < v.bounds.right ∧
      v.bounds.right < next + 2 * children.size + 1 := by
  have := bounds_of_mem_walk h
  simp only [walkEnd] at this
  omega

theorem bounds_of_mem_rest (h : v ∈ rest.walk parent (next + 2 * children.size + 1 + 1)) :
    next + 2 * children.size + 1 < v.bounds.left ∧ v.bounds.left < v.bounds.right := by
  have := bounds_of_mem_walk h
  omega

end

theorem pairwise_left_walk (f : Forest α) (parent : Option α) (next : Int) :
    (f.walk parent next).Pairwise fun u v => u.bounds.left < v.bounds.left := by
  induction f generalizing parent next with
  | nil => exact List.Pairwise.nil
  | tree a children rest ihc ihr =>
    refine List.pairwise_cons.2 ⟨?_, List.pairwise_append.2 ⟨ihc _ _, ihr _ _, ?_⟩⟩
    · intro v hv
      rcases List.mem_append.1 hv with hv | hv
      · exact (bounds_of_mem_children hv).1
      · have := bounds_of_mem_rest hv
        dsimp only
        omega
    · intro u hu v hv
      have hu := bounds_of_mem_children hu
      have hv := bounds_of_mem_rest hv
      omega

/-- Around each visit the walk falls into what lies before, the walk of the children, and
what lies behind. -/
theorem exists_split_walk {f : Forest α} {parent : Option α} {next : Int} {v : Visit α}
    (h : v ∈ f.walk parent next) :
    ∃ (children : Forest α) (before after : List (Visit α)),
      f.walk parent next =
        before ++ v :: (children.walk (some v.label) (v.bounds.left + 1) ++ after) ∧
      v.bounds.right = v.bounds.left + 2 * children.size + 1 ∧
      (∀ u ∈ before, u.bounds.left < v.bounds.left) ∧
      ∀ u ∈ after, v.bounds.right < u.bounds.left := by
  induction f generalizing parent next with
  | nil => cases h
  | tree a children rest ihc ihr =>
    simp only [walk, List.mem_cons, List.mem_append] at h
    rcases h with rfl | h | h
    · exact ⟨children, [], rest.walk parent (next + 2 * children.size + 1 + 1), rfl, rfl,
        by simp, fun u hu => (bounds_of_mem_rest hu).1⟩
    · obtain ⟨inner, before, after, hw, hr, hb, ha⟩ := ihc h
      have hv := bounds_of_mem_children h
      refine ⟨inner, ⟨a, ⟨next, next + 2 * children.size + 1⟩, parent⟩ :: before,
        after ++ rest.walk parent (next + 2 * children.size + 1 + 1), ?_, hr, ?_, ?_⟩
      · simp only [walk, hw, List.cons_append, List.append_assoc]
      · exact List.forall_mem_cons.2 ⟨hv.1, hb⟩
      · refine List.forall_mem_append.2 ⟨ha, fun u hu => ?_⟩
        have := bounds_of_mem_rest hu
        omega
    · obtain ⟨inner, before, after, hw, hr, hb, ha⟩ := ihr h
      have hv := bounds_of_mem_rest h
      refine ⟨inner, ⟨a, ⟨next, next + 2 * children.size + 1⟩, parent⟩ ::
        (children.walk (some a) (next + 1) ++ before), after, ?_, hr, ?_, ha⟩
      · simp only [walk, hw, List.cons_append, List.append_assoc]
      · refine List.forall_mem_cons.2 ⟨?_, List.forall_mem_append.2 ⟨fun u hu => ?_, hb⟩⟩
        · dsimp only
          omega
        · have := bounds_of_mem_children hu
          omega

theorem parent_of_mem_walk {f : Forest α} {a : α} {next : Int} {v : Visit α}
    (h : v ∈ f.walk (some a) next) : v.parent.isSome := by
  induction f generalizing a next with
  | nil => cases h
  | tree b children rest ihc ihr =>
    simp only [walk, List.mem_cons, List.mem_append] at h
    rcases h with rfl | h | h
    · rfl
    · exact ihc h
    · exact ihr h

theorem filter_parent_walk (f : Forest α) (next : Int) :
    ((f.walk none next).filter fun v => v.parent.isNone).map (·.label) = f.roots := by
  induction f generalizing next with
  | nil => rfl
  | tree a children rest _ ihr =>
    have hc : (children.walk (some a) (next + 1)).filter (fun v => v.parent.isNone) = [] := by
      rw [List.filter_eq_nil_iff]
      intro v hv
      have := parent_of_mem_walk hv
      simpa [Option.isSome_iff_ne_none] using this
    simp only [walk, List.filter_cons, List.filter_append, hc, Option.isNone_none, if_true,
      List.nil_append, List.map_cons, ihr, roots]

theorem isTree_iff_length_roots {f : Forest α} : f.isTree = true ↔ f.roots.length ≤ 1 := by
  match f with
  | nil => simp [isTree, roots]
  | tree a children nil => simp [isTree, roots]
  | tree a children (tree b inner rest) => simp [isTree, roots]

end Forest

end NestedSet
