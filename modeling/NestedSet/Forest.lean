import NestedSet.Node

/-!
# Ordered forests and their numbering

An ordered forest is empty, or a first tree followed by the rest; the first
tree is a label over the forest of its children. A walk through the forest
that counts each entry and each exit gives every label its marker interval.
The rows of one tree are such a walk, begun at marker 1.
-/

set_option autoImplicit false

namespace NestedSet

inductive Forest (α : Type) where
  | nil
  | tree (label : α) (children rest : Forest α)
  deriving DecidableEq, Repr

/-- A label as a walk meets it: its interval, and the label it stands directly under. -/
structure Visit (α : Type) where
  label : α
  bounds : Bounds
  parent : Option α
  deriving DecidableEq, Repr

namespace Forest

variable {α : Type}

def size : Forest α → Nat
  | nil => 0
  | tree _ children rest => children.size + rest.size + 1

def labels : Forest α → List α
  | nil => []
  | tree a children rest => a :: (children.labels ++ rest.labels)

def roots : Forest α → List α
  | nil => []
  | tree a _ rest => a :: rest.roots

def append : Forest α → Forest α → Forest α
  | nil, g => g
  | tree a children rest, g => tree a children (rest.append g)

/-- Numbers the entries and exits of a forest from `next` on, under the given parent. -/
def walk (parent : Option α) (next : Int) : Forest α → List (Visit α)
  | nil => []
  | tree a children rest =>
    let exit := next + 2 * children.size + 1
    ⟨a, ⟨next, exit⟩, parent⟩ ::
      (children.walk (some a) (next + 1) ++ rest.walk parent (exit + 1))

def walkEnd (next : Int) (f : Forest α) : Int := next + 2 * f.size

theorem size_append (f g : Forest α) : (f.append g).size = f.size + g.size := by
  induction f with
  | nil => simp [append, size]
  | tree a children rest _ ih =>
    simp only [append, size, ih]
    omega

theorem length_labels (f : Forest α) : f.labels.length = f.size := by
  induction f with
  | nil => rfl
  | tree a children rest ihc ihr => simp [labels, size, ihc, ihr]

theorem map_label_walk (f : Forest α) (parent : Option α) (next : Int) :
    (f.walk parent next).map (·.label) = f.labels := by
  induction f generalizing parent next with
  | nil => rfl
  | tree a children rest ihc ihr => simp [walk, labels, ihc, ihr]

theorem length_walk (f : Forest α) (parent : Option α) (next : Int) :
    (f.walk parent next).length = f.size := by
  rw [← length_labels, ← map_label_walk f parent next, List.length_map]

theorem walk_append (f g : Forest α) (parent : Option α) (next : Int) :
    (f.append g).walk parent next = f.walk parent next ++ g.walk parent (f.walkEnd next) := by
  induction f generalizing next with
  | nil => simp [append, walk, walkEnd, size]
  | tree a children rest _ ihr =>
    have h : walkEnd (next + 2 * ↑children.size + 1 + 1) rest =
        walkEnd next (tree a children rest) := by
      simp only [walkEnd, size]
      omega
    simp only [append, walk, ihr, h, List.cons_append, List.append_assoc]

theorem bounds_of_mem_walk {f : Forest α} {parent : Option α} {next : Int} {v : Visit α}
    (h : v ∈ f.walk parent next) :
    next ≤ v.bounds.left ∧ v.bounds.left < v.bounds.right ∧
      v.bounds.right < f.walkEnd next := by
  induction f generalizing parent next with
  | nil => cases h
  | tree a children rest ihc ihr =>
    simp only [walk, List.mem_cons, List.mem_append] at h
    rcases h with rfl | h | h
    · simp only [walkEnd, size]
      omega
    · have := ihc h
      simp only [walkEnd, size] at *
      omega
    · have := ihr h
      simp only [walkEnd, size] at *
      omega

end Forest

/-- What a tree keeps of a node, whatever its place. -/
structure Item where
  id : Int
  payload : Payload
  deriving DecidableEq, Repr

namespace Forest

def shapes (f : Forest Int) : List Shape :=
  (f.walk none 1).map fun v => ⟨v.label, v.bounds, v.parent⟩

def nodes (f : Forest Item) : List Node :=
  (f.walk none 1).map fun v =>
    ⟨v.label.id, v.bounds.left, v.bounds.right, v.parent.map (·.id), v.label.payload⟩

def isTree {α : Type} : Forest α → Bool
  | tree _ _ (tree ..) => false
  | _ => true

end Forest

end NestedSet
