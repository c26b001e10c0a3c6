import Mathlib
import NestedSet.Proofs.Recognition
import NestedSet.Proofs.Serving

/-!
# What is read from a table

The nodes of a hosted forest are listed in the order of its walk, and if the
forest is one tree or none, nothing is found wrong with them.
-/

set_option autoImplicit false

namespace NestedSet

theorem mergeSort_eq_of_perm {l nodes : List Node} (h : l.Perm nodes)
    (hs : nodes.Pairwise fun a b => a.left < b.left) :
    l.mergeSort (fun a b => decide (a.left ≤ b.left)) = nodes := by
  have hsorted := @List.pairwise_mergeSort Node (fun a b => decide (a.left ≤ b.left))
    (fun a b c hab hbc => by
      simp only [decide_eq_true_eq] at *
      omega)
    (fun a b => by
      simp only [Bool.or_eq_true, decide_eq_true_eq]
      omega) l
  have hperm := (List.mergeSort_perm l fun a b => decide (a.left ≤ b.left)).trans h
  have hinj := List.inj_on_of_nodup_map (f := fun n : Node => n.left)
    (List.pairwise_map.2 (hs.imp Int.ne_of_lt))
  refine List.Perm.eq_of_pairwise ?_ (hsorted.imp fun h => of_decide_eq_true h)
    (hs.imp Int.le_of_lt) hperm
  intro a b ha hb hab hba
  exact hinj (hperm.mem_iff.1 ha) hb (Int.le_antisymm hab hba)

theorem Forest.pairwise_left_nodes (f : Forest Item) :
    f.nodes.Pairwise fun a b => a.left < b.left :=
  List.pairwise_map.2 (f.pairwise_left_walk none 1)

theorem exists_map_of_perm {α β : Type} {f : α → β} {l : List β} {m : List α}
    (h : l.Perm (m.map f)) : ∃ w : List α, l = w.map f ∧ w.Perm m := by
  have hm : List.Forall₂ (fun b a => b = f a) (m.map f) m :=
    List.forall₂_map_left_iff.2 (List.forall₂_same.2 fun _ _ => rfl)
  obtain ⟨w, hw, hperm⟩ := List.perm_comp_forall₂ h hm
  refine ⟨w, ?_, hperm⟩
  have heq := List.forall₂_map_right_iff.2 hw
  rwa [List.forall₂_eq_eq_eq] at heq

theorem mapM_eq_ok {α β ε : Type} {f : α → Except ε β} {l : List α} {m : List β}
    (h : l.map f = m.map .ok) : l.mapM f = .ok m := by
  induction l generalizing m with
  | nil =>
    cases m with
    | nil => rfl
    | cons => cases h
  | cons a rest ih =>
    cases m with
    | nil => cases h
    | cons b more =>
      obtain ⟨ha, hrest⟩ := List.cons.inj h
      rw [List.mapM_cons, ha, ih hrest]
      rfl

def precedesShown (a b : Except Refusal Node) : Bool :=
  match a, b with
  | .ok a, .ok b => decide (a.left ≤ b.left)
  | _, _ => false

namespace Reading

/-- The records hold the given nodes, in whatever order. -/
def Shows (records : List Record) (nodes : List Node) : Prop :=
  (records.map Record.node).Perm (nodes.map .ok)

namespace Shows

variable {records : List Record} {nodes : List Node}

theorem exists_node (h : Shows records nodes) {r : Record} (hr : r ∈ records) :
    ∃ n ∈ nodes, r.node = .ok n := by
  obtain ⟨n, hn, he⟩ := List.mem_map.1 ((List.Perm.mem_iff h).1 (List.mem_map_of_mem hr))
  exact ⟨n, hn, he.symm⟩

theorem exists_record (h : Shows records nodes) {n : Node} (hn : n ∈ nodes) :
    ∃ r ∈ records, r.node = .ok n :=
  List.mem_map.1 ((List.Perm.mem_iff h).2 (List.mem_map_of_mem hn))

theorem nodes_eq (h : Shows records nodes) (hs : nodes.Pairwise fun a b => a.left < b.left) :
    Reading.nodes records = .ok nodes := by
  obtain ⟨l, hl, hperm⟩ := exists_map_of_perm h
  have hsorted : (Reading.byLeft records).map Record.node = nodes.map .ok := by
    rw [Reading.byLeft, List.map_mergeSort (s := precedesShown), hl,
      ← mergeSort_eq_of_perm hperm hs, List.map_mergeSort (s := precedesShown)]
    · exact fun a _ b _ => rfl
    · intro a ha b hb
      obtain ⟨n, -, hn⟩ := h.exists_node ha
      obtain ⟨m, -, hm⟩ := h.exists_node hb
      have hleft := (Record.node_eq_ok_iff.1 hn).2.1
      have hleft' := (Record.node_eq_ok_iff.1 hm).2.1
      rw [hn, hm, hleft, hleft', Value.le_integer, precedesShown]
  rw [Reading.nodes, Reading.all, mapM_eq_ok hsorted]
  rfl

end Shows

end Reading

namespace Schema.Reads

variable {s : Schema} {t : Table} {f : Forest Item}

theorem shows {nodes : List Node} (h : s.Reads t nodes) : Reading.Shows (s.recordsOf t) nodes := by
  rw [Reading.Shows, recordsOf, List.map_map]
  exact h

theorem nodes_eq (h : s.Reads t f.nodes) : Reading.nodes (s.recordsOf t) = .ok f.nodes :=
  h.shows.nodes_eq f.pairwise_left_nodes

theorem check_eq (h : s.Reads t f.nodes) (hf : f.isTree = true) :
    Reading.check (s.recordsOf t) = .ok [] := by
  have hshapes : f.nodes.map Node.shape = (f.map (·.id)).shapes := by
    have hwalk := Forest.walk_map (fun a : Item => a.id) f none 1
    rw [Option.map_none] at hwalk
    rw [Forest.shapes, hwalk, Forest.nodes, List.map_map, List.map_map]
    rfl
  have hnone : violations (f.nodes.map Node.shape) = [] := by
    rw [hshapes]
    cases f with
    | nil => rfl
    | tree a children rest =>
      cases rest with
      | nil => exact violations_eq_nil_of_perm (.refl _)
      | tree => cases hf
  rw [Reading.check, h.nodes_eq]
  exact congrArg Except.ok hnone

end Schema.Reads

end NestedSet
