import NestedSet.Forest

/-!
# Editing a forest

Inserting a forest below or beside a label, erasing the tree at a label, and
changing labels in place. The label is picked by a predicate; where labels are
distinct, it picks one. Carrying a tree elsewhere is taking it, erasing it,
and inserting it again.
-/

set_option autoImplicit false

namespace NestedSet.Forest

variable {α : Type}

def map {β : Type} (f : α → β) : Forest α → Forest β
  | nil => nil
  | tree a children rest => tree (f a) (children.map f) (rest.map f)

def childrenOf? (pick : α → Bool) : Forest α → Option (Forest α)
  | nil => none
  | tree a children rest =>
    if pick a then some children
    else (children.childrenOf? pick).or (rest.childrenOf? pick)

def treeAt? (pick : α → Bool) : Forest α → Option (Forest α)
  | nil => none
  | tree a children rest =>
    if pick a then some (tree a children nil)
    else (children.treeAt? pick).or (rest.treeAt? pick)

def erase (pick : α → Bool) : Forest α → Forest α
  | nil => nil
  | tree a children rest =>
    if pick a then rest.erase pick else tree a (children.erase pick) (rest.erase pick)

def insertBelow : Forest α → (α → Bool) → Forest α → Forest α
  | nil, _, _ => nil
  | tree a children rest, pick, new =>
    let inner := children.insertBelow pick new
    tree a (if pick a then new.append inner else inner) (rest.insertBelow pick new)

def insertAfter : Forest α → (α → Bool) → Forest α → Forest α
  | nil, _, _ => nil
  | tree a children rest, pick, new =>
    let others := rest.insertAfter pick new
    tree a (children.insertAfter pick new) (if pick a then new.append others else others)

theorem size_map {β : Type} (f : α → β) (t : Forest α) : (t.map f).size = t.size := by
  induction t with
  | nil => rfl
  | tree a children rest ihc ihr => simp [map, size, ihc, ihr]

theorem walk_map {β : Type} (f : α → β) (t : Forest α) (parent : Option α) (next : Int) :
    (t.map f).walk (parent.map f) next =
      (t.walk parent next).map fun v => ⟨f v.label, v.bounds, v.parent.map f⟩ := by
  induction t generalizing parent next with
  | nil => rfl
  | tree a children rest ihc ihr =>
    have h := ihc (some a) (next + 1)
    simp only [Option.map_some] at h
    simp [map, walk, size_map, h, ihr]

theorem erase_eq_self {pick : α → Bool} {f : Forest α} (h : ∀ a ∈ f.labels, pick a = false) :
    f.erase pick = f := by
  induction f with
  | nil => rfl
  | tree a children rest ihc ihr =>
    simp only [labels, List.mem_cons, List.mem_append] at h
    rw [erase, h a (.inl rfl), ihc fun b hb => h b (.inr (.inl hb)),
      ihr fun b hb => h b (.inr (.inr hb))]
    simp

theorem insertBelow_eq_self {pick : α → Bool} {new f : Forest α}
    (h : ∀ a ∈ f.labels, pick a = false) : f.insertBelow pick new = f := by
  induction f with
  | nil => rfl
  | tree a children rest ihc ihr =>
    simp only [labels, List.mem_cons, List.mem_append] at h
    rw [insertBelow, h a (.inl rfl), ihc fun b hb => h b (.inr (.inl hb)),
      ihr fun b hb => h b (.inr (.inr hb))]
    simp

theorem insertAfter_eq_self {pick : α → Bool} {new f : Forest α}
    (h : ∀ a ∈ f.labels, pick a = false) : f.insertAfter pick new = f := by
  induction f with
  | nil => rfl
  | tree a children rest ihc ihr =>
    simp only [labels, List.mem_cons, List.mem_append] at h
    rw [insertAfter, h a (.inl rfl), ihc fun b hb => h b (.inr (.inl hb)),
      ihr fun b hb => h b (.inr (.inr hb))]
    simp

end NestedSet.Forest
