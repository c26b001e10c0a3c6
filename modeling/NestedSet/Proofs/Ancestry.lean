import Mathlib
import NestedSet.Proofs.Atomicity
import NestedSet.Proofs.Enclosure

/-!
# Readers of a tree in which nothing is wrong

From records in which the check finds nothing wrong one tree is read off. The
readers compare markers only, yet they answer what the recorded parents say:
the path of a node is the chain of its parents, its subtree holds what is
reached from it downwards, and the root is the node without a parent.
-/

set_option autoImplicit false

namespace NestedSet

/-! ### The tree of records in which nothing is wrong -/

namespace Reading

theorem map_eq_of_mapM {α β ε : Type} {f : α → Except ε β} {l : List α} {m : List β}
    (h : l.mapM f = .ok m) : l.map f = m.map .ok := by
  induction l generalizing m with
  | nil =>
    cases h
    rfl
  | cons a rest ih =>
    rw [List.mapM_cons] at h
    obtain ⟨b, hb, h⟩ := exists_of_bind_ok h
    obtain ⟨more, hmore, h⟩ := exists_of_bind_ok h
    cases h
    rw [List.map_cons, List.map_cons, hb, ih hmore]

theorem map_id_of_map_node {records : List Record} {nodes : List Node}
    (h : records.map Record.node = nodes.map .ok) :
    records.map (·.id.value) = nodes.map fun n => .integer n.id := by
  induction records generalizing nodes with
  | nil =>
    obtain rfl := List.map_eq_nil_iff.1 h.symm
    rfl
  | cons r rest ih =>
    cases nodes with
    | nil => cases h
    | cons n more =>
      obtain ⟨hr, hrest⟩ := List.cons.inj h
      rw [List.map_cons, List.map_cons, ih hrest, (Record.node_eq_ok_iff.1 hr).1]

theorem exists_payload_of_shapes {nodes : List Node} (hids : (nodes.map (·.id)).Nodup)
    {g : Forest Int} (h : (nodes.map Node.shape).Perm g.shapes) :
    ∃ payload : Int → Payload, (g.map fun id => (⟨id, payload id⟩ : Item)).nodes.Perm nodes := by
  let payload : Int → Payload := fun id =>
    ((nodes.find? fun n => n.id == id).map Node.payload).getD []
  have hpayload : ∀ n ∈ nodes, payload n.id = n.payload := by
    intro n hn
    obtain ⟨m, hm⟩ : ∃ m, nodes.find? (fun m => m.id == n.id) = some m := by
      cases hfind : nodes.find? fun m => m.id == n.id with
      | some m => exact ⟨m, rfl⟩
      | none =>
        rw [List.find?_eq_none] at hfind
        exact absurd (by simp) (hfind n hn)
    have hid : m.id = n.id := by simpa using List.find?_some hm
    have hsame := List.inj_on_of_nodup_map hids (List.mem_of_find?_eq_some hm) hn hid
    simp only [payload, hm, hsame, Option.map_some, Option.getD_some]
  have hwalk := Forest.walk_map (fun id => (⟨id, payload id⟩ : Item)) g none 1
  rw [Option.map_none] at hwalk
  have hnodes : (g.map fun id => (⟨id, payload id⟩ : Item)).nodes = g.shapes.map fun shape =>
      ⟨shape.id, shape.bounds.left, shape.bounds.right, shape.parent, payload shape.id⟩ := by
    rw [Forest.nodes_eq, hwalk, Forest.shapes, List.map_map, List.map_map]
    apply List.map_congr_left
    intro v _
    simp [Visit.node, Function.comp_def]
  refine ⟨payload, ?_⟩
  rw [hnodes]
  refine (h.symm.map _).trans (List.Perm.of_eq ?_)
  rw [List.map_map]
  refine (List.map_congr_left ?_).trans (List.map_id nodes)
  intro n hn
  simp only [Function.comp_apply, Node.shape, Node.bounds, hpayload n hn, id]

/-- Records with different ids in which nothing is found wrong hold one tree or none. -/
theorem exists_forest_of_check {records : List Record}
    (hids : (records.map (·.id.value)).Nodup) (hc : check records = .ok []) :
    ∃ f : Forest Item, f.isTree = true ∧ f.ids.Nodup ∧ Shows records f.nodes := by
  obtain ⟨nodes, hnodes, hc⟩ := exists_of_bind_ok hc
  have hnone : violations (nodes.map Node.shape) = [] := Except.ok.inj hc
  have hsorted : (byLeft records).map Record.node = nodes.map .ok := by
    apply map_eq_of_mapM
    unfold Reading.nodes ask all at hnodes
    cases hall : (byLeft records).mapM Record.node with
    | error refusal => simp [hall, Except.mapError] at hnodes
    | ok found =>
      rw [hall] at hnodes
      exact congrArg Except.ok (Except.ok.inj hnodes)
  have hbyLeft : (byLeft records).Perm records := List.mergeSort_perm _ _
  have hshows : Shows records nodes := by
    rw [Shows, ← hsorted]
    exact (hbyLeft.map _).symm
  have hdistinct : (nodes.map (·.id)).Nodup := by
    have hvalues := (hbyLeft.map fun r : Record => r.id.value).nodup_iff.2 hids
    rw [map_id_of_map_node hsorted] at hvalues
    refine List.Nodup.of_map Value.integer ?_
    rwa [List.map_map]
  have htree : ∃ f : Forest Item, f.isTree = true ∧ f.nodes.Perm nodes := by
    by_cases hempty : nodes = []
    · exact ⟨.nil, rfl, by rw [hempty]; exact .refl _⟩
    · have hshapes : nodes.map Node.shape ≠ [] := by simpa using hempty
      obtain ⟨id, children, hperm⟩ := exists_tree_of_violations_eq_nil hshapes hnone
      obtain ⟨payload, hnodes⟩ := exists_payload_of_shapes hdistinct hperm
      exact ⟨_, rfl, hnodes⟩
  obtain ⟨f, hf, hperm⟩ := htree
  refine ⟨f, hf, ?_, List.Perm.trans hshows (hperm.symm.map _)⟩
  rw [← Forest.map_id_nodes]
  exact (hperm.map _).nodup_iff.2 hdistinct

/-! ### The readers on a tree -/

namespace Shows

variable {records : List Record} {nodes : List Node} {f : Forest Item} {n : Node}

theorem first_eq (h : Shows records nodes) {q : Record → Bool} {p : Node → Bool}
    (hq : ∀ r ∈ records, ∀ n, r.node = .ok n → q r = p n) (hn : n ∈ nodes) (hp : p n = true)
    (honly : ∀ m ∈ nodes, p m = true → m = n) : first records q = .ok (some n) := by
  unfold first
  cases hfind : records.find? q with
  | none =>
    obtain ⟨r, hr, hrn⟩ := h.exists_record hn
    exact absurd ((hq r hr n hrn).trans hp) (List.find?_eq_none.1 hfind r hr)
  | some r =>
    have hr := List.mem_of_find?_eq_some hfind
    obtain ⟨m, hm, hrm⟩ := h.exists_node hr
    have hmn := honly m hm ((hq r hr m hrm).symm.trans (List.find?_some hfind))
    simp only [hrm, hmn]
    rfl

variable (h : Shows records f.nodes) (hf : f.ids.Nodup)

include h hf

theorem element?_eq (hn : n ∈ f.nodes) : element? records n.id = .ok (some n) :=
  h.first_eq (p := fun m => decide (m.id = n.id))
    (fun _ _ _ hrm => Cell.equals_of_integer (Record.node_eq_ok_iff.1 hrm).1 _) hn (by simp)
    fun _ hm hmn => Forest.eq_of_mem_nodes hf hm hn (of_decide_eq_true hmn)

theorem element_eq (hn : n ∈ f.nodes) : element records n.id = .ok n := by
  unfold element
  rw [h.element?_eq hf hn]
  rfl

theorem parent_eq_none (hn : n ∈ f.nodes) (hp : n.parent = none) :
    parent records n.id = .ok none := by
  unfold parent
  rw [h.element_eq hf hn]
  simp only [bind, Except.bind, hp]
  rfl

theorem parent_eq_some {u : Node} (hn : n ∈ f.nodes) (hu : u ∈ f.nodes)
    (hp : n.parent = some u.id) : parent records n.id = .ok (some u) := by
  unfold parent
  rw [h.element_eq hf hn]
  simp only [bind, Except.bind, hp, h.element?_eq hf hu]
  rfl

theorem path_eq (hn : n ∈ f.nodes) : path records n.id = .ok (f.around n) := by
  unfold path
  rw [h.element_eq hf hn]
  refine nodes_eq (perm_filter_of_perm_ok h ?_) (f.pairwise_left_around n)
  intro r _ m hrm
  obtain ⟨-, hleft, hright, -⟩ := Record.node_eq_ok_iff.1 hrm
  rw [Cell.atMost_of_integer hleft, Cell.atLeast_of_integer hright]

theorem subtree_eq (hn : n ∈ f.nodes) :
    subtree records n.id = .ok
      (f.nodes.filter fun m => decide (n.left ≤ m.left) && decide (m.left ≤ n.right)) := by
  unfold subtree
  rw [h.element_eq hf hn]
  refine nodes_eq (perm_filter_of_perm_ok h ?_) (f.pairwise_left_nodes.filter _)
  intro r _ m hrm
  obtain ⟨-, hleft, -, -⟩ := Record.node_eq_ok_iff.1 hrm
  rw [Cell.atLeast_of_integer hleft, Cell.atMost_of_integer hleft]

theorem hasChildren_eq (hn : n ∈ f.nodes) :
    hasChildren records n.id = .ok (!n.bounds.isLeaf) := by
  unfold hasChildren
  rw [h.element_eq hf hn]
  rfl

theorem isChildOf_eq {m : Node} (hn : n ∈ f.nodes) (hm : m ∈ f.nodes) :
    isChildOf records n.id m.id = .ok (n.bounds.contains m.bounds) := by
  unfold isChildOf
  rw [h.element_eq hf hn, h.element_eq hf hm]
  rfl

end Shows

end Reading

theorem Forest.exists_root {f : Forest Item} (hf : f.isTree = true) (hne : f.nodes ≠ []) :
    ∃ root ∈ f.nodes, root.left = 1 ∧ ∀ m ∈ f.nodes, m.parent = none ↔ m = root := by
  cases f with
  | nil => exact absurd rfl hne
  | tree a children rest =>
    cases rest with
    | tree => cases hf
    | nil =>
      refine ⟨_, List.mem_cons_self, rfl, ?_⟩
      intro m hm
      rw [nodes_eq, walk, walk, List.append_nil, List.map_cons, List.mem_cons] at hm
      constructor
      · rintro hnone
        rcases hm with rfl | hm
        · rfl
        · obtain ⟨v, hv, rfl⟩ := List.mem_map.1 hm
          have hsome := parent_of_mem_walk hv
          cases hp : v.parent with
          | none => simp [hp] at hsome
          | some b => simp [Visit.node, hp] at hnone
      · rintro rfl
        rfl

theorem Reading.Shows.root_eq {records : List Record} {f : Forest Item} {n : Node}
    (h : Shows records f.nodes) (hn : n ∈ f.nodes) (hleft : n.left = 1) :
    root records = .ok n := by
  have hfirst : first records (beginsAt 1) = .ok (some n) :=
    h.first_eq (p := fun m => decide (m.left = 1))
      (fun _ _ _ hrm => Cell.equals_of_integer (Record.node_eq_ok_iff.1 hrm).2.1 _) hn
      (by simp [hleft])
      fun _ hm hmn => Forest.eq_of_left hm hn ((of_decide_eq_true hmn).trans hleft.symm)
  unfold root
  rw [hfirst]
  rfl

/-! ### What a handle reads -/

namespace Handle

inductive Ascent (h : Handle) (store : Store) : Int → List Node → Prop where
  | top {id : Int} {n : Node} (found : h.read store (Reading.element · id) = .ok n)
    (last : h.read store (Reading.parent · id) = .ok none) : Ascent h store id [n]
  | up {id : Int} {n p : Node} {chain : List Node}
    (found : h.read store (Reading.element · id) = .ok n)
    (next : h.read store (Reading.parent · id) = .ok (some p))
    (rest : Ascent h store p.id chain) : Ascent h store id (n :: chain)

/-- What is read of a node by its markers is what the recorded parents of the nodes say. -/
structure FollowsParents (h : Handle) (store : Store) (nodes : List Node) (n : Node) : Prop where
  path : ∃ chain, h.Ascent store n.id chain ∧
    h.read store (Reading.path · n.id) = .ok chain.reverse
  subtree : ∃ below, h.read store (Reading.subtree · n.id) = .ok (n :: below) ∧
    (n :: below).Sublist nodes ∧
    (∀ m ∈ nodes, m ∈ below ↔ Relation.TransGen (IsParent nodes) n.id m.id) ∧
    ((n :: below).length : Int) * 2 = n.right - n.left + 1
  hasChildren : ∃ answer, h.read store (Reading.hasChildren · n.id) = .ok answer ∧
    (answer = true ↔ ∃ m ∈ nodes, m.parent = some n.id)
  isChildOf : ∀ m ∈ nodes, ∃ answer, h.read store (Reading.isChildOf · n.id m.id) = .ok answer ∧
    (answer = true ↔ Relation.TransGen (IsParent nodes) n.id m.id)

variable {h : Handle} {store : Store} {records : List Record} {f : Forest Item} {n : Node}

theorem ascent_around (hr : h.schema.records (store.view h.connection) = .ok records)
    (hshows : Reading.Shows records f.nodes) (hf : f.ids.Nodup) (hn : n ∈ f.nodes) :
    h.Ascent store n.id (f.around n).reverse := by
  induction hk : n.left.toNat using Nat.strong_induction_on generalizing n with
  | _ k ih =>
    have hfound : h.read store (Reading.element · n.id) = .ok n :=
      (read_of_records hr _).trans (hshows.element_eq hf hn)
    obtain ⟨hnone, houter⟩ | ⟨u, hu, hparent, hun, hinner⟩ := Forest.enclosed_nodes hn
    · rw [Forest.around_of_root hn houter]
      exact .top hfound ((read_of_records hr _).trans (hshows.parent_eq_none hf hn hnone))
    · have hlt := (Bounds.contains_iff.1 hun).1
      have hpos := (Forest.bounds_of_mem_nodes hu).1
      simp only [Node.bounds] at hlt
      rw [Forest.around_of_parent hn hu hun hinner, List.reverse_append]
      exact .up hfound ((read_of_records hr _).trans (hshows.parent_eq_some hf hn hu hparent))
        (ih u.left.toNat (by omega) hu rfl)

theorem followsParents (hr : h.schema.records (store.view h.connection) = .ok records)
    (hshows : Reading.Shows records f.nodes) (hf : f.ids.Nodup) (hn : n ∈ f.nodes) :
    h.FollowsParents store f.nodes n := by
  obtain ⟨before, below, after, hnodes, hright, hbefore, hbelow, hafter, hchild⟩ :=
    Forest.exists_split_nodes hn
  have hmem : ∀ m ∈ below, m ∈ f.nodes := fun m hm => by simp [hnodes, hm]
  refine ⟨?_, ?_, ?_, ?_⟩
  · refine ⟨_, ascent_around hr hshows hf hn, ?_⟩
    rw [read_of_records hr, hshows.path_eq hf hn, List.reverse_reverse]
  · refine ⟨below, ?_, ?_, ?_, ?_⟩
    · rw [read_of_records hr, hshows.subtree_eq hf hn,
        Forest.filter_inside hn hnodes hbefore hbelow hafter]
    · rw [← Forest.filter_inside hn hnodes hbefore hbelow hafter]
      exact List.filter_sublist
    · intro m hm
      rw [Forest.transGen_isParent_iff hf hn hm]
      refine ⟨hbelow m, ?_⟩
      intro hnm
      have hin := Bounds.contains_iff.1 hnm
      simp only [Node.bounds] at hin
      rw [hnodes, List.mem_append, List.mem_cons, List.mem_append] at hm
      have hml := (Forest.bounds_of_mem_nodes (show m ∈ f.nodes by simp [hnodes, hm])).2
      rcases hm with hm | rfl | hm | hm
      · have := hbefore m hm
        omega
      · omega
      · exact hm
      · have := hafter m hm
        omega
    · rw [List.length_cons]
      omega
  · refine ⟨!n.bounds.isLeaf, (read_of_records hr _).trans (hshows.hasChildren_eq hf hn), ?_⟩
    have hleaf : (!n.bounds.isLeaf) = true ↔ below ≠ [] := by
      simp only [Bounds.isLeaf, Node.bounds, Bool.not_eq_true', beq_eq_false_iff_ne]
      rw [← List.length_pos_iff]
      omega
    rw [hleaf]
    constructor
    · intro hne
      obtain ⟨m, hm, hparent⟩ := hchild hne
      exact ⟨m, hmem m hm, hparent⟩
    · rintro ⟨m, hm, hparent⟩ rfl
      have hin := (Forest.transGen_isParent_iff hf hn hm).1 (.single ⟨m, hm, rfl, hparent⟩)
      have hbounds := Bounds.contains_iff.1 hin
      have hml := (Forest.bounds_of_mem_nodes hm).2
      simp only [Node.bounds] at hbounds
      simp only [List.length_nil] at hright
      omega
  · intro m hm
    exact ⟨_, (read_of_records hr _).trans (hshows.isChildOf_eq hf hn hm),
      (Forest.transGen_isParent_iff hf hn hm).symm⟩

end Handle

/-- Where nothing is wrong with a tree, its nodes are listed in preorder, what is read of a node
is what the recorded parents say, and the root is the only node without a parent. -/
theorem readers_follow_parents {h : Handle} {store : Store} {records : List Record}
    (hr : h.schema.records (store.view h.connection) = .ok records)
    (hids : (records.map (·.id.value)).Nodup) (hc : h.read store Reading.check = .ok []) :
    ∃ f : Forest Item, f.isTree = true ∧ h.nodes store = .ok f.nodes ∧
      (records.map Record.node).Perm (f.nodes.map .ok) ∧
      (∀ n ∈ f.nodes, h.FollowsParents store f.nodes n) ∧
      (f.nodes ≠ [] → ∃ root ∈ f.nodes, h.read store Reading.root = .ok root ∧
        ∀ m ∈ f.nodes, m.parent = none ↔ m = root) := by
  rw [Handle.read_of_records hr] at hc
  obtain ⟨f, hf, hdistinct, hshows⟩ := Reading.exists_forest_of_check hids hc
  refine ⟨f, hf, ?_, hshows, fun n hn => Handle.followsParents hr hshows hdistinct hn, ?_⟩
  · exact (Handle.read_of_records hr _).trans (hshows.nodes_eq f.pairwise_left_nodes)
  · intro hne
    obtain ⟨root, hroot, hleft, honly⟩ := Forest.exists_root hf hne
    exact ⟨root, hroot, (Handle.read_of_records hr _).trans (hshows.root_eq hroot hleft), honly⟩

/-- The tree `1(3(4) 2)`, whose preorder is not that of its ids. -/
def branchStore : Store :=
  { committed := { tables := [{ Table.ofSchema plainHandle.schema with
    rows := [⟨1, [("l", .integer 1), ("r", .integer 8), ("p", .null)]⟩,
      ⟨2, [("l", .integer 6), ("r", .integer 7), ("p", .integer 1)]⟩,
      ⟨3, [("l", .integer 2), ("r", .integer 5), ("p", .integer 1)]⟩,
      ⟨4, [("l", .integer 3), ("r", .integer 4), ("p", .integer 3)]⟩]
    fits := by decide }] } }

def branchRecords : List Record :=
  [⟨⟨"id", .numeric, .integer 1⟩, ⟨"l", .numeric, .integer 1⟩, ⟨"r", .numeric, .integer 8⟩,
      ⟨"p", .numeric, .null⟩, []⟩,
    ⟨⟨"id", .numeric, .integer 2⟩, ⟨"l", .numeric, .integer 6⟩, ⟨"r", .numeric, .integer 7⟩,
      ⟨"p", .numeric, .integer 1⟩, []⟩,
    ⟨⟨"id", .numeric, .integer 3⟩, ⟨"l", .numeric, .integer 2⟩, ⟨"r", .numeric, .integer 5⟩,
      ⟨"p", .numeric, .integer 1⟩, []⟩,
    ⟨⟨"id", .numeric, .integer 4⟩, ⟨"l", .numeric, .integer 3⟩, ⟨"r", .numeric, .integer 4⟩,
      ⟨"p", .numeric, .integer 3⟩, []⟩]

theorem records_branch :
    plainHandle.schema.records (branchStore.view plainHandle.connection) = .ok branchRecords := by
  decide +kernel

theorem check_branch : plainHandle.read branchStore Reading.check = .ok [] := by
  rw [Handle.read, records_branch]
  cbv

theorem readers_follow_parents_branch :
    plainHandle.read branchStore Reading.check = .ok [] ∧
      ∃ nodes root, plainHandle.nodes branchStore = .ok nodes ∧ nodes.length = 4 ∧
        plainHandle.read branchStore Reading.root = .ok root ∧
        ∀ n ∈ nodes, plainHandle.FollowsParents branchStore nodes n := by
  obtain ⟨f, -, hnodes, hperm, hfollows, hroot⟩ :=
    readers_follow_parents records_branch (by decide) check_branch
  have hlength : f.nodes.length = 4 := by simpa [branchRecords] using hperm.length_eq.symm
  obtain ⟨root, -, hreads, -⟩ := hroot (by
    rintro hnil
    rw [hnil] at hlength
    cases hlength)
  exact ⟨check_branch, f.nodes, root, hnodes, hlength, hreads, hfollows⟩

end NestedSet
