import Mathlib
import NestedSet.Proofs.Ancestry

/-!
# Neighbours by their markers

Some readers look for the node whose marker is one above or one below that of
another. What begins next to where a node begins is its first child, what
begins next to where it ends is its next sibling; and where neither a sibling
begins nor ends, there is the marker of the parent. No two nodes share a
marker, so no such look can meet two.
-/

set_option autoImplicit false

namespace NestedSet

/-! ### Markers that touch -/

namespace Forest

variable {f : Forest Item} {m n u : Node} {k : Int}

theorem parent_of_contains (hm : m ∈ f.nodes) (hn : n ∈ f.nodes)
    (hinside : n.bounds.contains m.bounds = true)
    (hnone : ∀ u ∈ f.nodes, n.bounds.contains u.bounds = true →
      ¬u.bounds.contains m.bounds = true) : m.parent = some n.id := by
  obtain ⟨-, houter⟩ | ⟨u, hu, hparent, hum, hinner⟩ := enclosed_nodes hm
  · exact absurd hinside (houter n hn)
  · rcases hinner n hn hinside with rfl | hnu
    · exact hparent
    · exact absurd hum (hnone u hu hnu)

theorem parent_of_left_succ (hm : m ∈ f.nodes) (hn : n ∈ f.nodes) (h : m.left = n.left + 1) :
    m.parent = some n.id := by
  have hn' := (bounds_of_mem_nodes hn).2
  have hinside : n.bounds.contains m.bounds = true := by
    refine (inside_of_left hn hm (by omega) (by omega)).resolve_left ?_
    rintro rfl
    omega
  refine parent_of_contains hm hn hinside ?_
  intro u _ hnu hum
  have hnu := (Bounds.contains_iff.1 hnu).1
  have hum := (Bounds.contains_iff.1 hum).1
  simp only [Node.bounds] at hnu hum
  omega

theorem parent_of_right_succ (hm : m ∈ f.nodes) (hn : n ∈ f.nodes) (h : n.right = m.right + 1) :
    m.parent = some n.id := by
  have hm' := (bounds_of_mem_nodes hm).2
  have hn' := (bounds_of_mem_nodes hn).2
  have hleft : n.left ≤ m.left := by
    by_contra hlt
    rcases inside_of_left hm hn (by omega) (by omega) with rfl | hmn
    · omega
    · have hmn := (Bounds.contains_iff.1 hmn).2
      simp only [Node.bounds] at hmn
      omega
  have hinside : n.bounds.contains m.bounds = true := by
    refine (inside_of_left hn hm hleft (by omega)).resolve_left ?_
    rintro rfl
    omega
  refine parent_of_contains hm hn hinside ?_
  intro u _ hnu hum
  have hnu := (Bounds.contains_iff.1 hnu).2
  have hum := (Bounds.contains_iff.1 hum).2
  simp only [Node.bounds] at hnu hum
  omega

theorem parent_congr (hm : m ∈ f.nodes) (hn : n ∈ f.nodes)
    (h : ∀ w ∈ f.nodes, w.bounds.contains m.bounds = true ↔ w.bounds.contains n.bounds = true) :
    m.parent = n.parent := by
  obtain ⟨hnone, houter⟩ | ⟨u, hu, hparent, hum, hinner⟩ := enclosed_nodes hm
  · obtain ⟨hnone', -⟩ | ⟨v, hv, -, hvn, -⟩ := enclosed_nodes hn
    · rw [hnone, hnone']
    · exact absurd ((h v hv).2 hvn) (houter v hv)
  · obtain ⟨-, houter⟩ | ⟨v, hv, hparent', hvn, hinner'⟩ := enclosed_nodes hn
    · exact absurd ((h u hu).1 hum) (houter u hu)
    · rcases hinner' u hu ((h u hu).1 hum) with rfl | huv
      · rw [hparent, hparent']
      · rcases hinner v hv ((h v hv).2 hvn) with rfl | hvu
        · rw [hparent, hparent']
        · have huv := (Bounds.contains_iff.1 huv).1
          have hvu := (Bounds.contains_iff.1 hvu).1
          omega

theorem parent_of_left_succ_right (hm : m ∈ f.nodes) (hn : n ∈ f.nodes)
    (h : m.left = n.right + 1) : m.parent = n.parent := by
  have hm' := (bounds_of_mem_nodes hm).2
  have hn' := (bounds_of_mem_nodes hn).2
  refine parent_congr hm hn ?_
  intro w hw
  have hmw := left_ne_right hm hw
  have hwn := left_ne_right hw hn
  constructor
  · intro hin
    have hin := Bounds.contains_iff.1 hin
    simp only [Node.bounds] at hin
    -- the node around begins before the second one ends, hence before it begins
    have hbefore : w.left < n.left := by
      by_contra hle
      rcases inside_of_left hn hw (by omega) (by omega) with rfl | hnw
      · omega
      · have hnw := (Bounds.contains_iff.1 hnw).2
        simp only [Node.bounds] at hnw
        omega
    rw [Bounds.contains_iff]
    simp only [Node.bounds]
    omega
  · intro hin
    have hin := Bounds.contains_iff.1 hin
    simp only [Node.bounds] at hin
    refine (inside_of_left hw hm (by omega) (by omega)).resolve_left ?_
    rintro rfl
    omega

/-! ### The nodes at a marker -/

def startingAt? (f : Forest Item) (k : Int) : Option Node :=
  f.nodes.find? fun m => decide (m.left = k)

def endingAt? (f : Forest Item) (k : Int) : Option Node :=
  f.nodes.find? fun m => decide (m.right = k)

theorem find?_eq_some_of_only {l : List Node} {p : Node → Bool}
    (honly : ∀ m ∈ l, ∀ n ∈ l, p m = true → p n = true → m = n) :
    l.find? p = some m ↔ m ∈ l ∧ p m = true := by
  constructor
  · intro h
    exact ⟨List.mem_of_find?_eq_some h, List.find?_some h⟩
  · rintro ⟨hm, hpm⟩
    cases hfind : l.find? p with
    | none => exact absurd hpm (List.find?_eq_none.1 hfind m hm)
    | some n =>
      rw [honly n (List.mem_of_find?_eq_some hfind) m hm (List.find?_some hfind) hpm]

theorem startingAt?_eq_some_iff : f.startingAt? k = some m ↔ m ∈ f.nodes ∧ m.left = k := by
  rw [startingAt?, find?_eq_some_of_only, decide_eq_true_eq]
  intro m hm n hn hmk hnk
  exact eq_of_left hm hn ((of_decide_eq_true hmk).trans (of_decide_eq_true hnk).symm)

theorem endingAt?_eq_some_iff : f.endingAt? k = some m ↔ m ∈ f.nodes ∧ m.right = k := by
  rw [endingAt?, find?_eq_some_of_only, decide_eq_true_eq]
  intro m hm n hn hmk hnk
  exact eq_of_right hm hn ((of_decide_eq_true hmk).trans (of_decide_eq_true hnk).symm)

theorem eq_of_holds (hm : m ∈ f.nodes) (hn : n ∈ f.nodes) (hmk : m.left = k ∨ m.right = k)
    (hnk : n.left = k ∨ n.right = k) : m = n := by
  rcases hmk with hmk | hmk <;> rcases hnk with hnk | hnk
  · exact eq_of_left hm hn (hmk.trans hnk.symm)
  · exact absurd (hmk.trans hnk.symm) (left_ne_right hm hn)
  · exact absurd (hnk.trans hmk.symm) (left_ne_right hn hm)
  · exact eq_of_right hm hn (hmk.trans hnk.symm)

theorem startingAt?_right (hn : n ∈ f.nodes) : f.startingAt? n.right = none := by
  refine List.find?_eq_none.2 ?_
  intro m hm
  simpa using left_ne_right hm hn

theorem endingAt?_left (hn : n ∈ f.nodes) : f.endingAt? n.left = none := by
  refine List.find?_eq_none.2 ?_
  intro m hm
  simpa using (left_ne_right hn hm).symm

theorem eq_of_parent_eq_none (hf : f.isTree = true) (hm : m ∈ f.nodes) (hn : n ∈ f.nodes)
    (hm' : m.parent = none) (hn' : n.parent = none) : m = n := by
  obtain ⟨root, -, -, honly⟩ := exists_root hf (List.ne_nil_of_mem hn)
  rw [(honly m hm).1 hm', (honly n hn).1 hn']

/-- What meets a node on one side: nothing if it is the root, else a sibling, or the parent if
there is none. -/
def Borders (f : Forest Item) (n : Node) (sibling parent : Option Node) : Prop :=
  (n.parent = none ∧ sibling = none ∧ parent = none) ∨
    ∃ u ∈ f.nodes, n.parent = some u.id ∧
      ((∃ m, sibling = some m) ∨ sibling = none ∧ parent = some u)

/-- It is enough that siblings and parents are met on a side, and that inside another node one of
them is. -/
theorem borders_of (hf : f.isTree = true) (hids : f.ids.Nodup) (hn : n ∈ f.nodes)
    {sibling parent : Option Node}
    (hsibling : ∀ m, sibling = some m → m ∈ f.nodes ∧ m ≠ n ∧ m.parent = n.parent)
    (hparent : ∀ m, parent = some m → m ∈ f.nodes ∧ n.parent = some m.id)
    (hmet : ∀ u ∈ f.nodes, u.bounds.contains n.bounds = true →
      (∃ m, sibling = some m) ∨ (sibling = none ∧ ∃ m, parent = some m)) :
    f.Borders n sibling parent := by
  obtain ⟨hroot, -⟩ | ⟨u, hu, hnu, hun, -⟩ := enclosed_nodes hn
  · refine .inl ⟨hroot, ?_, ?_⟩
    · rw [Option.eq_none_iff_forall_ne_some]
      intro m h
      obtain ⟨hm, hne, hsame⟩ := hsibling m h
      exact hne (eq_of_parent_eq_none hf hm hn (hsame.trans hroot) hroot)
    · rw [Option.eq_none_iff_forall_ne_some]
      intro m h
      rw [(hparent m h).2] at hroot
      cases hroot
  · refine .inr ⟨u, hu, hnu, (hmet u hu hun).imp_right ?_⟩
    rintro ⟨hnone, m, h⟩
    obtain ⟨hm, hnm⟩ := hparent m h
    have hid : m.id = u.id := Option.some.inj (hnm.symm.trans hnu)
    exact ⟨hnone, by rw [h, eq_of_mem_nodes hids hm hu hid]⟩

theorem borders_left (hf : f.isTree = true) (hids : f.ids.Nodup) (hn : n ∈ f.nodes) :
    f.Borders n (f.endingAt? (n.left - 1)) (f.startingAt? (n.left - 1)) := by
  have hn' := (bounds_of_mem_nodes hn).2
  refine borders_of hf hids hn ?_ ?_ ?_
  · intro m hend
    obtain ⟨hm, hright⟩ := endingAt?_eq_some_iff.1 hend
    refine ⟨hm, ?_, (parent_of_left_succ_right hn hm (by omega)).symm⟩
    rintro rfl
    omega
  · intro m hstart
    obtain ⟨hm, hleft⟩ := startingAt?_eq_some_iff.1 hstart
    exact ⟨hm, parent_of_left_succ hn hm (by omega)⟩
  · intro u hu hun
    have hin := Bounds.contains_iff.1 hun
    simp only [Node.bounds] at hin
    obtain ⟨m, hm, hleft | hright⟩ := exists_holder hu (k := n.left - 1) (by omega) (by omega)
    · exact .inr ⟨hleft ▸ endingAt?_left hm, m, startingAt?_eq_some_iff.2 ⟨hm, hleft⟩⟩
    · exact .inl ⟨m, endingAt?_eq_some_iff.2 ⟨hm, hright⟩⟩

theorem borders_right (hf : f.isTree = true) (hids : f.ids.Nodup) (hn : n ∈ f.nodes) :
    f.Borders n (f.startingAt? (n.right + 1)) (f.endingAt? (n.right + 1)) := by
  have hn' := (bounds_of_mem_nodes hn).2
  refine borders_of hf hids hn ?_ ?_ ?_
  · intro m hstart
    obtain ⟨hm, hleft⟩ := startingAt?_eq_some_iff.1 hstart
    refine ⟨hm, ?_, parent_of_left_succ_right hm hn hleft⟩
    rintro rfl
    omega
  · intro m hend
    obtain ⟨hm, hright⟩ := endingAt?_eq_some_iff.1 hend
    exact ⟨hm, parent_of_right_succ hn hm hright⟩
  · intro u hu hun
    have hin := Bounds.contains_iff.1 hun
    simp only [Node.bounds] at hin
    obtain ⟨m, hm, hleft | hright⟩ := exists_holder hu (k := n.right + 1) (by omega) (by omega)
    · exact .inl ⟨m, startingAt?_eq_some_iff.2 ⟨hm, hleft⟩⟩
    · exact .inr ⟨hright ▸ startingAt?_right hm, m, endingAt?_eq_some_iff.2 ⟨hm, hright⟩⟩

/-! ### The children of a node -/

/-- At a marker inside a node one of its children begins, if it is not where the node ends. -/
structure IsSlot (f : Forest Item) (n : Node) (k : Int) : Prop where
  inside : n.left < k ∧ k ≤ n.right
  child : ∀ m ∈ f.nodes, m.left = k → m.parent = some n.id
  last : ∀ m ∈ f.nodes, m.right = k → m = n

theorem isSlot_first (hn : n ∈ f.nodes) : f.IsSlot n (n.left + 1) := by
  have hn' := (bounds_of_mem_nodes hn).2
  refine ⟨by omega, fun m hm => parent_of_left_succ hm hn, ?_⟩
  intro m hm hright
  have hm' := (bounds_of_mem_nodes hm).2
  rcases inside_of_left hm hn (by omega) (by omega) with rfl | hmn
  · rfl
  · have hmn := (Bounds.contains_iff.1 hmn).2
    simp only [Node.bounds] at hmn
    omega

theorem isSlot_behind (hids : f.ids.Nodup) (hn : n ∈ f.nodes) (hm : m ∈ f.nodes)
    (hparent : m.parent = some n.id) : f.IsSlot n (m.right + 1) := by
  have hin := Bounds.contains_iff.1 (contains_of_parent hids hm hn hparent).1
  have hm' := (bounds_of_mem_nodes hm).2
  simp only [Node.bounds] at hin
  refine ⟨by omega, fun w hw hleft => (parent_of_left_succ_right hw hm hleft).trans hparent, ?_⟩
  intro w hw hright
  exact eq_of_mem_nodes hids hw hn
    (Option.some.inj ((parent_of_right_succ hm hw hright).symm.trans hparent))

def childrenFrom (f : Forest Item) (n : Node) (k : Int) : List Node :=
  f.nodes.filter fun m => decide (m.parent = some n.id) && decide (k ≤ m.left)

theorem mem_childrenFrom :
    m ∈ f.childrenFrom n k ↔ m ∈ f.nodes ∧ m.parent = some n.id ∧ k ≤ m.left := by
  simp [childrenFrom]

theorem childrenFrom_left (hids : f.ids.Nodup) (hn : n ∈ f.nodes) (hm : m ∈ f.nodes)
    (hparent : m.parent = some n.id) :
    f.childrenFrom n m.left = m :: f.childrenFrom n (m.right + 1) := by
  have hm' := (bounds_of_mem_nodes hm).2
  refine eq_of_mem_iff (f.pairwise_left_nodes.filter _)
    (List.pairwise_cons.2 ⟨?_, f.pairwise_left_nodes.filter _⟩) ?_
  · intro d hd
    have := (mem_childrenFrom.1 hd).2.2
    omega
  · intro d
    rw [List.mem_cons, mem_childrenFrom, mem_childrenFrom]
    constructor
    · rintro ⟨hd, hdn, hle⟩
      by_contra hnot
      obtain ⟨hne, hout⟩ := not_or.1 hnot
      -- a child that lay in another would have the node itself inside that one
      rcases inside_of_left hm hd hle (by by_contra; exact hout ⟨hd, hdn, by omega⟩) with h | hmd
      · exact hne h
      · have hnm := Bounds.contains_iff.1 (contains_of_parent hids hm hn hparent).1
        rcases (contains_of_parent hids hd hn hdn).2 m hm hmd with rfl | hmn
        · omega
        · have := (Bounds.contains_iff.1 hmn).1
          omega
    · rintro (rfl | ⟨hd, hdn, hle⟩)
      · exact ⟨hm, hparent, Int.le_refl _⟩
      · exact ⟨hd, hdn, by omega⟩

theorem childrenFrom_right (hids : f.ids.Nodup) (hn : n ∈ f.nodes) :
    f.childrenFrom n n.right = [] := by
  rw [childrenFrom, List.filter_eq_nil_iff]
  intro d hd hchild
  simp only [Bool.and_eq_true, decide_eq_true_eq] at hchild
  have hin := Bounds.contains_iff.1 (contains_of_parent hids hd hn hchild.1).1
  have hd' := (bounds_of_mem_nodes hd).2
  simp only [Node.bounds] at hin
  omega

theorem childrenFrom_first (hids : f.ids.Nodup) (hn : n ∈ f.nodes) :
    f.childrenFrom n (n.left + 1) = f.nodes.filter fun m => decide (m.parent = some n.id) := by
  rw [childrenFrom]
  apply List.filter_congr
  intro d hd
  rw [Bool.and_eq_left_iff_imp, decide_eq_true_eq, decide_eq_true_eq]
  intro hparent
  have hin := (Bounds.contains_iff.1 (contains_of_parent hids hd hn hparent).1).1
  simp only [Node.bounds] at hin
  omega

end Forest

/-! ### The readers by touching markers -/

namespace Reading

/-- The conditions by which the readers look for a node, and for another next to it. -/
def touching (n : Node) : List (Record → Bool) :=
  [hasId n.id, isFirstChild n, isNext n, isPrevious n,
    fun r => touchesAsSibling n .left r || touchesAsParent n .left r,
    fun r => touchesAsSibling n .right r || touchesAsParent n .right r]

theorem conditions_of_node {r : Record} {m : Node} (hr : r.node = .ok m) :
    (∀ k, hasId k r = decide (m.id = k)) ∧ (∀ k, beginsAt k r = decide (m.left = k)) ∧
      (∀ k, endsAt k r = decide (m.right = k)) ∧
      ∀ parent, hasParent parent r = decide (m.parent = parent) := by
  obtain ⟨hid, hleft, hright, hparent, -⟩ := Record.node_eq_ok_iff.1 hr
  exact ⟨Cell.equals_of_integer hid, Cell.equals_of_integer hleft, Cell.equals_of_integer hright,
    Cell.is_of_integer? hparent⟩

namespace Shows

variable {records : List Record} {nodes : List Node} {f : Forest Item} {m n : Node}

theorem first_eq_find? (h : Shows records nodes) {q : Record → Bool} {p : Node → Bool}
    (hq : ∀ r, ∀ m ∈ nodes, r.node = .ok m → q r = p m)
    (honly : ∀ m ∈ nodes, ∀ n ∈ nodes, p m = true → p n = true → m = n) :
    first records q = .ok (nodes.find? p) := by
  unfold first
  cases hfind : records.find? q with
  | none =>
    have hnone : nodes.find? p = none := by
      refine List.find?_eq_none.2 ?_
      intro m hm hpm
      obtain ⟨r, hr, hrm⟩ := h.exists_record hm
      exact List.find?_eq_none.1 hfind r hr ((hq r m hm hrm).trans hpm)
    rw [hnone]
  | some r =>
    obtain ⟨m, hm, hrm⟩ := h.exists_node (List.mem_of_find?_eq_some hfind)
    have hpm := (hq r m hm hrm).symm.trans (List.find?_some hfind)
    rw [(Forest.find?_eq_some_of_only honly).2 ⟨hm, hpm⟩]
    simp only [hrm]
    rfl

theorem countP_le_one (h : Shows records nodes) (hnodes : nodes.Nodup) {q : Record → Bool}
    {p : Node → Bool} (hq : ∀ r m, r.node = .ok m → q r = p m)
    (honly : ∀ m ∈ nodes, ∀ n ∈ nodes, p m = true → p n = true → m = n) :
    records.countP q ≤ 1 := by
  have hcount : records.countP q = (nodes.filter p).length := by
    rw [List.countP_eq_length_filter]
    simpa using (perm_filter_of_perm_ok h fun r _ => hq r).length_eq
  have hmem : ∀ m ∈ nodes.filter p, m ∈ nodes ∧ p m = true := fun m => List.mem_filter.1
  have hnodup := hnodes.filter p
  rw [hcount]
  match hfound : nodes.filter p with
  | [] => simp
  | [_] => simp
  | a :: b :: rest =>
    rw [hfound] at hnodup hmem
    obtain ⟨ha, hpa⟩ := hmem a (by simp)
    obtain ⟨hb, hpb⟩ := hmem b (by simp)
    rw [honly a ha b hb hpa hpb] at hnodup
    simp at hnodup

section Readers

variable (h : Shows records f.nodes) (hids : f.ids.Nodup)

include h

theorem startingAt?_eq (k : Int) : first records (beginsAt k) = .ok (f.startingAt? k) := by
  refine h.first_eq_find? (fun r m _ hr => (conditions_of_node hr).2.1 k) ?_
  intro m hm n hn hmk hnk
  exact Forest.eq_of_left hm hn ((of_decide_eq_true hmk).trans (of_decide_eq_true hnk).symm)

theorem endingAt?_eq (k : Int) : first records (endsAt k) = .ok (f.endingAt? k) := by
  refine h.first_eq_find? (fun r m _ hr => (conditions_of_node hr).2.2.1 k) ?_
  intro m hm n hn hmk hnk
  exact Forest.eq_of_right hm hn ((of_decide_eq_true hmk).trans (of_decide_eq_true hnk).symm)

include hids

theorem firstChild_eq (hn : n ∈ f.nodes) :
    firstChild records n.id = .ok (f.startingAt? (n.left + 1)) := by
  unfold firstChild
  rw [h.element_eq hids hn]
  change ask (first records (beginsAt _)) = _
  rw [h.startingAt?_eq]
  rfl

/-- That it has the same parent need not be asked of a node that begins right behind. -/
theorem nextSibling_eq (hn : n ∈ f.nodes) :
    nextSibling records n.id = .ok (f.startingAt? (n.right + 1)) := by
  have hfirst : first records (isNext n) = .ok (f.startingAt? (n.right + 1)) := by
    refine h.first_eq_find? ?_ ?_
    · intro r m hm hr
      obtain ⟨-, hleft, -, hparent⟩ := conditions_of_node hr
      rw [isNext, hleft, hparent, Bool.and_eq_left_iff_imp, decide_eq_true_eq, decide_eq_true_eq]
      exact Forest.parent_of_left_succ_right hm hn
    · intro m hm k hk hmk hkk
      exact Forest.eq_of_left hm hk ((of_decide_eq_true hmk).trans (of_decide_eq_true hkk).symm)
  unfold nextSibling
  rw [h.element_eq hids hn]
  change ask (first records _) = _
  rw [hfirst]
  rfl

theorem previousSibling_eq (hn : n ∈ f.nodes) :
    previousSibling records n.id = .ok (f.endingAt? (n.left - 1)) := by
  have hfirst : first records (isPrevious n) = .ok (f.endingAt? (n.left - 1)) := by
    refine h.first_eq_find? ?_ ?_
    · intro r m hm hr
      obtain ⟨-, -, hright, hparent⟩ := conditions_of_node hr
      rw [isPrevious, hright, hparent, Bool.and_eq_left_iff_imp, decide_eq_true_eq,
        decide_eq_true_eq]
      exact fun hmn => (Forest.parent_of_left_succ_right hn hm (by omega)).symm
    · intro m hm k hk hmk hkk
      exact Forest.eq_of_right hm hk ((of_decide_eq_true hmk).trans (of_decide_eq_true hkk).symm)
  unfold previousSibling
  rw [h.element_eq hids hn]
  change ask (first records _) = _
  rw [hfirst]
  rfl

theorem neighbor_left_eq (hn : n ∈ f.nodes) :
    neighbor records n.id .left =
      .ok (((f.endingAt? (n.left - 1)).map Neighbor.sibling).or
        ((f.startingAt? (n.left - 1)).map .parent)) := by
  unfold neighbor
  rw [h.element_eq hids hn]
  change ask (toucher? records n .left) = _
  rw [toucher?, touchesAsSibling, touchesAsParent, h.endingAt?_eq]
  cases f.endingAt? (n.left - 1) with
  | some m => rfl
  | none =>
    rw [h.startingAt?_eq]
    rfl

theorem neighbor_right_eq (hn : n ∈ f.nodes) :
    neighbor records n.id .right =
      .ok (((f.startingAt? (n.right + 1)).map Neighbor.sibling).or
        ((f.endingAt? (n.right + 1)).map .parent)) := by
  unfold neighbor
  rw [h.element_eq hids hn]
  change ask (toucher? records n .right) = _
  rw [toucher?, touchesAsSibling, touchesAsParent, h.startingAt?_eq]
  cases f.startingAt? (n.right + 1) with
  | some m => rfl
  | none =>
    rw [h.endingAt?_eq]
    rfl

theorem countP_touching (n : Node) : ∀ q ∈ touching n, records.countP q ≤ 1 := by
  have hcount {q : Record → Bool} {p : Node → Bool}
      (hq : ∀ r m, r.node = .ok m → q r = p m)
      (honly : ∀ m ∈ f.nodes, ∀ k ∈ f.nodes, p m = true → p k = true → m = k) :
      records.countP q ≤ 1 := h.countP_le_one f.nodup_nodes hq honly
  unfold touching
  simp only [List.forall_mem_cons, List.not_mem_nil, false_imp_iff, implies_true, and_true]
  refine ⟨?_, ?_, ?_, ?_, ?_, ?_⟩
  · refine hcount (fun r m hr => (conditions_of_node hr).1 _) ?_
    intro m hm k hk hmn hkn
    simp only [decide_eq_true_eq] at hmn hkn
    exact Forest.eq_of_mem_nodes hids hm hk (hmn.trans hkn.symm)
  · refine hcount (fun r m hr => (conditions_of_node hr).2.1 _) ?_
    intro m hm k hk hmn hkn
    simp only [decide_eq_true_eq] at hmn hkn
    exact Forest.eq_of_left hm hk (hmn.trans hkn.symm)
  · refine hcount (fun r m hr => congrArg₂ and ((conditions_of_node hr).2.1 _)
      ((conditions_of_node hr).2.2.2 _)) ?_
    intro m hm k hk hmn hkn
    simp only [Bool.and_eq_true, decide_eq_true_eq] at hmn hkn
    exact Forest.eq_of_left hm hk (hmn.1.trans hkn.1.symm)
  · refine hcount (fun r m hr => congrArg₂ and ((conditions_of_node hr).2.2.1 _)
      ((conditions_of_node hr).2.2.2 _)) ?_
    intro m hm k hk hmn hkn
    simp only [Bool.and_eq_true, decide_eq_true_eq] at hmn hkn
    exact Forest.eq_of_right hm hk (hmn.1.trans hkn.1.symm)
  · refine hcount (fun r m hr => congrArg₂ or ((conditions_of_node hr).2.2.1 _)
      ((conditions_of_node hr).2.1 _)) ?_
    intro m hm k hk hmn hkn
    simp only [Bool.or_eq_true, decide_eq_true_eq] at hmn hkn
    exact Forest.eq_of_holds hm hk hmn.symm hkn.symm
  · refine hcount (fun r m hr => congrArg₂ or ((conditions_of_node hr).2.1 _)
      ((conditions_of_node hr).2.2.1 _)) ?_
    intro m hm k hk hmn hkn
    simp only [Bool.or_eq_true, decide_eq_true_eq] at hmn hkn
    exact Forest.eq_of_holds hm hk hmn hkn

end Readers

end Shows

end Reading

/-! ### What a handle reads -/

namespace Handle

/-- The nodes met from a first one on, if there is one, by asking for the next sibling until there
is none. -/
inductive SiblingsFrom (h : Handle) (store : Store) : Option Node → List Node → Prop where
  | none : SiblingsFrom h store none []
  | some {n : Node} {next : Option Node} {more : List Node}
    (found : h.read store (Reading.nextSibling · n.id) = .ok next)
    (rest : SiblingsFrom h store next more) : SiblingsFrom h store (some n) (n :: more)

/-- What is read next to a node is what the recorded parents say, and no look meets two records. -/
structure Adjoins (h : Handle) (store : Store) (records : List Record) (nodes : List Node)
    (n : Node) : Prop where
  children : ∃ first, h.read store (Reading.firstChild · n.id) = .ok first ∧
    h.SiblingsFrom store first (nodes.filter fun m => decide (m.parent = some n.id))
  inverse : ∀ m ∈ nodes, h.read store (Reading.nextSibling · n.id) = .ok (some m) ↔
    h.read store (Reading.previousSibling · m.id) = .ok (some n)
  left : ∃ previous parent, h.read store (Reading.previousSibling · n.id) = .ok previous ∧
    h.read store (Reading.parent · n.id) = .ok parent ∧
    h.read store (Reading.neighbor · n.id .left) =
      .ok ((previous.map .sibling).or (parent.map .parent))
  right : ∃ next parent, h.read store (Reading.nextSibling · n.id) = .ok next ∧
    h.read store (Reading.parent · n.id) = .ok parent ∧
    h.read store (Reading.neighbor · n.id .right) =
      .ok ((next.map .sibling).or (parent.map .parent))
  root : ∀ side, h.read store (Reading.neighbor · n.id side) = .ok none ↔
    h.read store Reading.root = .ok n
  single : ∀ q ∈ Reading.touching n, records.countP q ≤ 1

variable {h : Handle} {store : Store} {records : List Record} {f : Forest Item} {n : Node}

section Shown

variable (hr : h.schema.records (store.view h.connection) = .ok records)
  (hshows : Reading.Shows records f.nodes) (hids : f.ids.Nodup)

include hr hshows hids

theorem siblingsFrom_slot (hn : n ∈ f.nodes) {k : Int} (hk : f.IsSlot n k) :
    h.SiblingsFrom store (f.startingAt? k) (f.childrenFrom n k) := by
  induction hw : (n.right - k).toNat using Nat.strong_induction_on generalizing k with
  | _ width ih =>
    obtain ⟨hlt, hle⟩ := hk.inside
    obtain ⟨m, hm, rfl | rfl⟩ := Forest.exists_holder hn (by omega) hle
    · have hparent := hk.child m hm rfl
      have hm' := (Forest.bounds_of_mem_nodes hm).2
      rw [Forest.startingAt?_eq_some_iff.2 ⟨hm, rfl⟩, Forest.childrenFrom_left hids hn hm hparent]
      have hbehind := Forest.isSlot_behind hids hn hm hparent
      have hwidth := hbehind.inside
      refine .some ((read_of_records hr _).trans (hshows.nextSibling_eq hids hm)) ?_
      exact ih _ (by omega) hbehind rfl
    · obtain rfl := hk.last m hm rfl
      rw [Forest.startingAt?_right hn, Forest.childrenFrom_right hids hn]
      exact .none

/-- What a node borders on is a sibling, or else what is read as its parent. -/
theorem exists_parent_of_borders (hn : n ∈ f.nodes) {a b : Option Node} (hab : f.Borders n a b) :
    ∃ parent, h.read store (Reading.parent · n.id) = .ok parent ∧
      (a.map Neighbor.sibling).or (b.map .parent) =
        (a.map Neighbor.sibling).or (parent.map .parent) ∧
      ((a.map Neighbor.sibling).or (b.map .parent) = none ↔ n.parent = none) := by
  obtain ⟨hnone, rfl, rfl⟩ | ⟨u, hu, hparent, hsides⟩ := hab
  · exact ⟨none, (read_of_records hr _).trans (hshows.parent_eq_none hids hn hnone), rfl,
      by simp [hnone]⟩
  · refine ⟨some u, (read_of_records hr _).trans (hshows.parent_eq_some hids hn hu hparent), ?_⟩
    obtain ⟨m, rfl⟩ | ⟨rfl, rfl⟩ := hsides
    · simp [hparent]
    · simp [hparent]

theorem adjoins (hf : f.isTree = true) (hn : n ∈ f.nodes) :
    h.Adjoins store records f.nodes n := by
  have hread : ∀ {α : Type} (question : List Record → Except TreeError α),
      h.read store question = question records := read_of_records hr
  obtain ⟨root, hroot, hleft, honly⟩ := Forest.exists_root hf (List.ne_nil_of_mem hn)
  have hroot_iff : h.read store Reading.root = .ok n ↔ n.parent = none := by
    rw [hread, hshows.root_eq hroot hleft, honly n hn, Except.ok.injEq]
    exact eq_comm
  obtain ⟨above, habove, hbefore, hnoneBefore⟩ :=
    exists_parent_of_borders hr hshows hids hn (Forest.borders_left hf hids hn)
  obtain ⟨above', habove', hbehind, hnoneBehind⟩ :=
    exists_parent_of_borders hr hshows hids hn (Forest.borders_right hf hids hn)
  have hneighborLeft := (hread (Reading.neighbor · n.id .left)).trans
    (hshows.neighbor_left_eq hids hn)
  have hneighborRight := (hread (Reading.neighbor · n.id .right)).trans
    (hshows.neighbor_right_eq hids hn)
  constructor
  case children =>
    refine ⟨_, (hread _).trans (hshows.firstChild_eq hids hn), ?_⟩
    rw [← Forest.childrenFrom_first hids hn]
    exact siblingsFrom_slot hr hshows hids hn (Forest.isSlot_first hn)
  case inverse =>
    intro m hm
    rw [hread, hread, hshows.nextSibling_eq hids hn, hshows.previousSibling_eq hids hm,
      Except.ok.injEq, Except.ok.injEq, Forest.startingAt?_eq_some_iff,
      Forest.endingAt?_eq_some_iff]
    constructor
    · exact fun h => ⟨hn, by omega⟩
    · exact fun h => ⟨hm, by omega⟩
  case left =>
    exact ⟨_, above, (hread _).trans (hshows.previousSibling_eq hids hn), habove,
      hneighborLeft.trans (congrArg Except.ok hbefore)⟩
  case right =>
    exact ⟨_, above', (hread _).trans (hshows.nextSibling_eq hids hn), habove',
      hneighborRight.trans (congrArg Except.ok hbehind)⟩
  case root =>
    intro side
    rw [hroot_iff]
    cases side with
    | left => rw [hneighborLeft, Except.ok.injEq, hnoneBefore]
    | right => rw [hneighborRight, Except.ok.injEq, hnoneBehind]
  case single => exact hshows.countP_touching hids n

end Shown

end Handle

/-- Where nothing is wrong with a tree, the readers that go by touching markers answer what the
recorded parents say: from the first child on the next siblings are the children in the order of
their markers, and what a node borders on is a sibling or, at the ends of a row, the parent. -/
theorem adjacency_follows_parents {h : Handle} {store : Store} {records : List Record}
    (hr : h.schema.records (store.view h.connection) = .ok records)
    (hids : (records.map (·.id.value)).Nodup) (hc : h.read store Reading.check = .ok []) :
    ∃ nodes, h.nodes store = .ok nodes ∧ (nodes.Pairwise fun a b => a.left < b.left) ∧
      (records.map Record.node).Perm (nodes.map .ok) ∧
      ∀ n ∈ nodes, h.Adjoins store records nodes n := by
  rw [Handle.read_of_records hr] at hc
  obtain ⟨f, hf, hdistinct, hshows⟩ := Reading.exists_forest_of_check hids hc
  refine ⟨f.nodes, ?_, f.pairwise_left_nodes, hshows, ?_⟩
  · exact (Handle.read_of_records hr _).trans (hshows.nodes_eq f.pairwise_left_nodes)
  · exact fun n hn => Handle.adjoins hr hshows hdistinct hf hn

/-- From the third node, the first child of the root, the second one is next and the last. -/
theorem adjacency_follows_parents_branch :
    plainHandle.read branchStore Reading.check = .ok [] ∧
      (∃ start, plainHandle.read branchStore (Reading.firstChild · 1) = .ok start ∧
        plainHandle.SiblingsFrom branchStore start [⟨3, 2, 5, some 1, []⟩, ⟨2, 6, 7, some 1, []⟩]) ∧
      ∃ previous parent, plainHandle.read branchStore (Reading.previousSibling · 2) = .ok previous ∧
        plainHandle.read branchStore (Reading.parent · 2) = .ok parent ∧
        plainHandle.read branchStore (Reading.neighbor · 2 .left) =
          .ok ((previous.map .sibling).or (parent.map .parent)) := by
  have hlist : plainHandle.nodes branchStore = .ok [⟨1, 1, 8, none, []⟩, ⟨3, 2, 5, some 1, []⟩,
      ⟨4, 3, 4, some 3, []⟩, ⟨2, 6, 7, some 1, []⟩] := by
    rw [Handle.nodes, Handle.read, records_branch]
    cbv
  obtain ⟨nodes, hnodes, -, -, hadjoins⟩ :=
    adjacency_follows_parents records_branch (by decide) check_branch
  cases hlist.symm.trans hnodes
  exact ⟨check_branch, (hadjoins ⟨1, 1, 8, none, []⟩ (by simp)).children,
    (hadjoins ⟨2, 6, 7, some 1, []⟩ (by simp)).left⟩

end NestedSet
