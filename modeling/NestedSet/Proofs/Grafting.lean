import Mathlib
import NestedSet.Forest.Edit

/-!
# Grafting and the numbering

Putting a forest into another one pushes the later markers of the host up and
leaves everything else as it was. Inserting below or beside a label and, read
backwards, erasing the tree at a label are such graftings, so the walk of a
forest after any of its edits is known from the walk before.
-/

set_option autoImplicit false

namespace NestedSet

namespace Bounds

def pushed (pivot width : Int) (b : Bounds) : Bounds :=
  ⟨if pivot < b.left then b.left + width else b.left,
    if pivot < b.right then b.right + width else b.right⟩

theorem pushed_of_lt {pivot width : Int} {b : Bounds} (hl : pivot < b.left)
    (hr : pivot < b.right) : b.pushed pivot width = b.shifted width := by
  simp [pushed, shifted, hl, hr]

theorem pushed_of_le {pivot width : Int} {b : Bounds} (hl : b.left ≤ pivot)
    (hr : b.right ≤ pivot) : b.pushed pivot width = b := by
  simp [pushed, Int.not_lt.2 hl, Int.not_lt.2 hr]

end Bounds

def Visit.onBounds {α : Type} (f : Bounds → Bounds) (v : Visit α) : Visit α :=
  { v with bounds := f v.bounds }

namespace Forest

variable {α : Type}

theorem walk_add (f : Forest α) (parent : Option α) (next d : Int) :
    f.walk parent (next + d) = (f.walk parent next).map (Visit.onBounds (·.shifted d)) := by
  induction f generalizing parent next with
  | nil => rfl
  | tree a children rest ihc ihr =>
    have hexit : next + d + 2 * (children.size : Int) + 1 =
        next + 2 * (children.size : Int) + 1 + d := by omega
    have hc : children.walk (some a) (next + d + 1) =
        (children.walk (some a) (next + 1)).map (Visit.onBounds (·.shifted d)) := by
      rw [← ihc]
      congr 1
      omega
    have hr : rest.walk parent (next + 2 * (children.size : Int) + 1 + d + 1) =
        (rest.walk parent (next + 2 * (children.size : Int) + 1 + 1)).map
          (Visit.onBounds (·.shifted d)) := by
      rw [← ihr]
      congr 1
      omega
    simp only [walk, hexit, hc, hr, List.map_cons, List.map_append, Visit.onBounds,
      Bounds.shifted]

theorem map_pushed_of_le {f : Forest α} {parent : Option α} {next pivot : Int} (width : Int)
    (h : f.walkEnd next ≤ pivot + 1) :
    (f.walk parent next).map (Visit.onBounds (Bounds.pushed pivot width)) =
      f.walk parent next := by
  rw [List.map_congr_left (g := id), List.map_id]
  intro v hv
  have hb := bounds_of_mem_walk hv
  rw [Visit.onBounds, Bounds.pushed_of_le (by omega) (by omega)]
  rfl

theorem map_pushed_of_lt {f : Forest α} {parent : Option α} {next pivot : Int} (width : Int)
    (h : pivot < next) :
    (f.walk parent next).map (Visit.onBounds (Bounds.pushed pivot width)) =
      f.walk parent (next + width) := by
  rw [walk_add]
  apply List.map_congr_left
  intro v hv
  have hb := bounds_of_mem_walk hv
  rw [Visit.onBounds, Visit.onBounds, Bounds.pushed_of_lt (by omega) (by omega)]

/-- In a walk begun at `next` under `parent`, the second forest has `new` more than the first:
its walk begins at `start` under `site`. -/
inductive Graft (new : Forest α) :
    Option α → Int → Option α → Int → Forest α → Forest α → Prop
  | here (parent : Option α) (next : Int) (f : Forest α) :
    Graft new parent next parent next f (new.append f)
  | inside {parent site : Option α} {next start : Int} {a : α} {children children' rest : Forest α}
    (h : Graft new (some a) (next + 1) site start children children') :
    Graft new parent next site start (tree a children rest) (tree a children' rest)
  | beside {parent site : Option α} {next start : Int} {a : α} {children rest rest' : Forest α}
    (h : Graft new parent (next + 2 * children.size + 1 + 1) site start rest rest') :
    Graft new parent next site start (tree a children rest) (tree a children rest')

namespace Graft

variable {new f g : Forest α} {parent site : Option α} {next start : Int}

theorem size_eq (h : Graft new parent next site start f g) : g.size = f.size + new.size := by
  induction h with
  | here parent next f => rw [size_append, Nat.add_comm]
  | inside _ ih =>
    simp only [size, ih]
    omega
  | beside _ ih =>
    simp only [size, ih]
    omega

theorem start_mem (h : Graft new parent next site start f g) :
    next ≤ start ∧ start ≤ f.walkEnd next := by
  induction h with
  | here parent next f =>
    simp only [walkEnd]
    omega
  | inside _ ih =>
    simp only [walkEnd, size] at *
    omega
  | beside _ ih =>
    simp only [walkEnd, size] at *
    omega

/-- The walk after a grafting: that of the graft, and the one before pushed up behind it. -/
theorem perm_walk (h : Graft new parent next site start f g) :
    (g.walk parent next).Perm (new.walk site start ++
      (f.walk parent next).map (Visit.onBounds (Bounds.pushed (start - 1) (2 * new.size)))) := by
  induction h with
  | here parent next f =>
    rw [walk_append, map_pushed_of_lt _ (by omega)]
    rfl
  | @inside parent site next start a children children' rest h ih =>
    have hs := h.size_eq
    have hm := h.start_mem
    simp only [walkEnd] at hm
    have hrest : (rest.walk parent (next + 2 * (children.size : Int) + 1 + 1)).map
        (Visit.onBounds (Bounds.pushed (start - 1) (2 * new.size))) =
          rest.walk parent (next + 2 * (children'.size : Int) + 1 + 1) := by
      rw [map_pushed_of_lt _ (by omega)]
      congr 1
      omega
    have hhead : Visit.onBounds (Bounds.pushed (start - 1) (2 * new.size))
        ⟨a, ⟨next, next + 2 * (children.size : Int) + 1⟩, parent⟩ =
          ⟨a, ⟨next, next + 2 * (children'.size : Int) + 1⟩, parent⟩ := by
      simp only [Visit.onBounds, Bounds.pushed, Visit.mk.injEq, Bounds.mk.injEq, true_and,
        and_true]
      constructor
      · rw [if_neg (by omega)]
      · rw [if_pos (by omega)]
        omega
    simp only [walk, List.map_cons, List.map_append, hrest, hhead]
    refine List.Perm.trans ?_ List.perm_middle.symm
    rw [List.perm_cons, ← List.append_assoc]
    exact ih.append_right _
  | @beside parent site next start a children rest rest' h ih =>
    have hm := h.start_mem
    simp only [walkEnd] at hm
    have hchildren : (children.walk (some a) (next + 1)).map
        (Visit.onBounds (Bounds.pushed (start - 1) (2 * new.size))) =
          children.walk (some a) (next + 1) := by
      apply map_pushed_of_le
      simp only [walkEnd]
      omega
    have hhead : Visit.onBounds (Bounds.pushed (start - 1) (2 * new.size))
        ⟨a, ⟨next, next + 2 * (children.size : Int) + 1⟩, parent⟩ =
          ⟨a, ⟨next, next + 2 * (children.size : Int) + 1⟩, parent⟩ := by
      rw [Visit.onBounds, Bounds.pushed_of_le]
      · simp only
        omega
      · simp only
        omega
    simp only [walk, List.map_cons, List.map_append, hchildren, hhead]
    refine List.Perm.trans ?_ List.perm_middle.symm
    rw [List.perm_cons, ← List.append_assoc]
    apply (ih.append_left _).trans
    rw [← List.append_assoc]
    exact List.perm_append_comm.append_right _

end Graft

def Distinct (pick : α → Bool) (f : Forest α) : Prop :=
  f.labels.Pairwise fun a b => pick a = true → pick b = false

theorem distinct_tree {pick : α → Bool} {a : α} {children rest : Forest α}
    (h : Distinct pick (tree a children rest)) :
    (pick a = true → (∀ b ∈ children.labels, pick b = false) ∧ ∀ b ∈ rest.labels, pick b = false) ∧
      (Distinct pick children ∧
        ∀ b ∈ children.labels, pick b = true → ∀ c ∈ rest.labels, pick c = false) ∧
      (Distinct pick rest ∧
        ∀ c ∈ rest.labels, pick c = true → ∀ b ∈ children.labels, pick b = false) := by
  obtain ⟨hhead, htail⟩ := List.pairwise_cons.1 h
  obtain ⟨hc, hr, hcross⟩ := List.pairwise_append.1 htail
  refine ⟨fun ha => ⟨?_, ?_⟩, ⟨hc, ?_⟩, ⟨hr, ?_⟩⟩
  · exact fun b hb => hhead b (List.mem_append_left _ hb) ha
  · exact fun b hb => hhead b (List.mem_append_right _ hb) ha
  · exact fun b hb hpb c hc => hcross b hb c hc hpb
  · intro c hc hpc b hb
    by_contra hpb
    have := hcross b hb c hc (by simpa using hpb)
    simp [hpc] at this

theorem treeAt?_eq_none {pick : α → Bool} {f : Forest α} (h : ∀ a ∈ f.labels, pick a = false) :
    f.treeAt? pick = none := by
  induction f with
  | nil => rfl
  | tree a children rest ihc ihr =>
    simp only [labels, List.mem_cons, List.mem_append] at h
    rw [treeAt?, h a (.inl rfl), ihc fun b hb => h b (.inr (.inl hb)),
      ihr fun b hb => h b (.inr (.inr hb))]
    rfl

theorem label_mem_labels {f : Forest α} {parent : Option α} {next : Int} {v : Visit α}
    (h : v ∈ f.walk parent next) : v.label ∈ f.labels := by
  rw [← map_label_walk f parent next]
  exact List.mem_map_of_mem h

theorem mem_walk_tree {a : α} {children rest : Forest α} {parent : Option α} {next : Int}
    {v : Visit α} : v ∈ (tree a children rest).walk parent next ↔
      v = ⟨a, ⟨next, next + 2 * children.size + 1⟩, parent⟩ ∨
        v ∈ children.walk (some a) (next + 1) ∨
          v ∈ rest.walk parent (next + 2 * children.size + 1 + 1) := by
  simp only [walk, List.mem_cons, List.mem_append]

theorem graft_insertBelow {pick : α → Bool} {new f : Forest α} {parent : Option α} {next : Int}
    {v : Visit α} (hd : Distinct pick f) (hv : v ∈ f.walk parent next)
    (hp : pick v.label = true) :
    Graft new parent next (some v.label) (v.bounds.left + 1) f (f.insertBelow pick new) := by
  induction f generalizing parent next with
  | nil => cases hv
  | tree a children rest ihc ihr =>
    obtain ⟨hself, ⟨hdc, hrest⟩, hdr, hchildren⟩ := distinct_tree hd
    by_cases ha : pick a = true
    · obtain ⟨hc, hr⟩ := hself ha
      rcases mem_walk_tree.1 hv with rfl | hv | hv
      · rw [insertBelow, insertBelow_eq_self hc, insertBelow_eq_self hr, if_pos ha]
        exact .inside (.here _ _ _)
      · simp [hc _ (label_mem_labels hv)] at hp
      · simp [hr _ (label_mem_labels hv)] at hp
    · rw [insertBelow, if_neg ha]
      rcases mem_walk_tree.1 hv with rfl | hv | hv
      · exact absurd hp ha
      · rw [insertBelow_eq_self (hrest _ (label_mem_labels hv) hp)]
        exact .inside (ihc hdc hv)
      · have hc := hchildren _ (label_mem_labels hv) hp
        rw [insertBelow_eq_self hc]
        exact .beside (ihr hdr hv)

theorem graft_insertAfter {pick : α → Bool} {new f : Forest α} {parent : Option α} {next : Int}
    {v : Visit α} (hd : Distinct pick f) (hv : v ∈ f.walk parent next)
    (hp : pick v.label = true) :
    Graft new parent next v.parent (v.bounds.right + 1) f (f.insertAfter pick new) := by
  induction f generalizing parent next with
  | nil => cases hv
  | tree a children rest ihc ihr =>
    obtain ⟨hself, ⟨hdc, hrest⟩, hdr, hchildren⟩ := distinct_tree hd
    by_cases ha : pick a = true
    · obtain ⟨hc, hr⟩ := hself ha
      rcases mem_walk_tree.1 hv with rfl | hv | hv
      · rw [insertAfter, insertAfter_eq_self hc, insertAfter_eq_self hr, if_pos ha]
        exact .beside (.here _ _ _)
      · simp [hc _ (label_mem_labels hv)] at hp
      · simp [hr _ (label_mem_labels hv)] at hp
    · rw [insertAfter, if_neg ha]
      rcases mem_walk_tree.1 hv with rfl | hv | hv
      · exact absurd hp ha
      · rw [insertAfter_eq_self (hrest _ (label_mem_labels hv) hp)]
        exact .inside (ihc hdc hv)
      · have hc := hchildren _ (label_mem_labels hv) hp
        rw [insertAfter_eq_self hc]
        exact .beside (ihr hdr hv)

theorem graft_erase {pick : α → Bool} {f : Forest α} {parent : Option α} {next : Int}
    {v : Visit α} (hd : Distinct pick f) (hv : v ∈ f.walk parent next)
    (hp : pick v.label = true) :
    ∃ children, f.treeAt? pick = some (tree v.label children nil) ∧
      v.bounds.right = v.bounds.left + 2 * children.size + 1 ∧
      Graft (tree v.label children nil) parent next v.parent v.bounds.left (f.erase pick) f := by
  induction f generalizing parent next with
  | nil => cases hv
  | tree a children rest ihc ihr =>
    obtain ⟨hself, ⟨hdc, hrest⟩, hdr, hchildren⟩ := distinct_tree hd
    by_cases ha : pick a = true
    · obtain ⟨hc, hr⟩ := hself ha
      rcases mem_walk_tree.1 hv with rfl | hv | hv
      · refine ⟨children, ?_, rfl, ?_⟩
        · simp [treeAt?, ha]
        · rw [erase, if_pos ha, erase_eq_self hr]
          exact .here _ _ rest
      · simp [hc _ (label_mem_labels hv)] at hp
      · simp [hr _ (label_mem_labels hv)] at hp
    · rw [erase, if_neg ha]
      rcases mem_walk_tree.1 hv with rfl | hv | hv
      · exact absurd hp ha
      · obtain ⟨below, ht, hb, hg⟩ := ihc hdc hv
        rw [erase_eq_self (hrest _ (label_mem_labels hv) hp)]
        refine ⟨below, ?_, hb, .inside hg⟩
        rw [treeAt?, if_neg ha, ht]
        rfl
      · have hc := hchildren _ (label_mem_labels hv) hp
        obtain ⟨below, ht, hb, hg⟩ := ihr hdr hv
        rw [erase_eq_self hc]
        refine ⟨below, ?_, hb, .beside hg⟩
        rw [treeAt?, if_neg ha, treeAt?_eq_none hc, ht]
        rfl

end Forest

end NestedSet
