import Mathlib
import NestedSet.Proofs.Recognition

/-!
# What the check finds in broken nestings

The sweep compares a node with one open interval only, and once intervals cross
its stack is no chain any more. Still, as long as nothing crosses, the open
intervals that reach to a node are those around it, innermost first; so the
first crossing is seen, and without one each node is compared with the smallest
interval around it.
-/

set_option autoImplicit false

namespace NestedSet

namespace Bounds

/-- Neither ends before the other begins, and neither lies strictly inside the other. -/
def Crosses (a b : Bounds) : Prop :=
  ¬(a.right < b.left ∨ b.right < a.left) ∧ ¬(a.contains b = true ∨ b.contains a = true)

instance (a b : Bounds) : Decidable (a.Crosses b) := inferInstanceAs (Decidable (_ ∧ _))

/-- What may come later in the order of the sweep: an interval behind, or one inside. -/
def Admits (a b : Bounds) : Prop := a.right < b.left ∨ a.contains b = true

variable {a b c : Bounds}

theorem Crosses.symm (h : a.Crosses b) : b.Crosses a := ⟨h.1 ∘ Or.symm, h.2 ∘ Or.symm⟩

theorem not_crosses_iff (hle : a.left ≤ b.left) (hb : b.left < b.right) :
    ¬a.Crosses b ↔ a.Admits b := by
  simp only [Crosses, Admits, contains_iff]
  omega

theorem Admits.of_contains (h : a.Admits b) (hbc : b.contains c = true) : a.Admits c := by
  rcases h with h | h
  · have := contains_iff.1 hbc
    exact .inl (by omega)
  · exact .inr (contains_trans h hbc)

theorem span_lt_of_contains (h : a.contains b = true) : b.span < a.span := by
  have := contains_iff.1 h
  simp only [span]
  omega

end Bounds

namespace Nesting

/-- The smallest interval that strictly contains that of a node. -/
def encloser? (nodes : List Shape) (n : Shape) : Option Shape :=
  (nodes.filter fun o => o.bounds.contains n.bounds).minOn? fun o => o.bounds.span

variable {nodes l : List Shape} {n o : Shape}

theorem encloser?_eq_none (h : ∀ o ∈ nodes, ¬o.bounds.contains n.bounds = true) :
    encloser? nodes n = none := by
  rw [encloser?, List.filter_eq_nil_iff.2 h, List.minOn?_nil]

theorem encloser?_eq_some (ho : o ∈ nodes) (hon : o.bounds.contains n.bounds = true)
    (hinner : ∀ m ∈ nodes, m.bounds.contains n.bounds = true →
      m = o ∨ m.bounds.contains o.bounds = true) : encloser? nodes n = some o := by
  have hmem : o ∈ nodes.filter fun o => o.bounds.contains n.bounds := List.mem_filter.2 ⟨ho, hon⟩
  have hle := List.apply_get_minOn?_le_of_mem (f := fun o : Shape => o.bounds.span) hmem
  obtain ⟨m, hm⟩ := Option.isSome_iff_exists.1
    (List.isSome_minOn?_of_mem (f := fun o : Shape => o.bounds.span) hmem)
  simp only [hm, Option.get_some] at hle
  obtain ⟨hmem, hmn⟩ := List.mem_filter.1 (List.minOn?_mem hm)
  rcases hinner m hmem hmn with rfl | hmo
  · exact hm
  · exact absurd (Bounds.span_lt_of_contains hmo) (Int.not_lt.2 hle)

/-! ### The sweep node by node -/

/-- Each fault of the sweep lies between a node and the latest one before that reaches to it. -/
theorem mem_scan_iff {before : List Shape} {v : Violation} :
    v ∈ scan before l ↔ ∃ pre x post, l = pre ++ x :: post ∧
      v ∈ enclosureFaults (reaching (pre.reverse ++ before) x.bounds.left) x := by
  induction l generalizing before with
  | nil => simp [scan]
  | cons node rest ih =>
    rw [scan, List.mem_append, ih]
    constructor
    · rintro (h | ⟨pre, x, post, rfl, h⟩)
      · exact ⟨[], node, rest, rfl, h⟩
      · exact ⟨node :: pre, x, post, rfl, by simpa using h⟩
    · rintro ⟨pre, x, post, hl, h⟩
      cases pre with
      | nil =>
        cases hl
        exact .inl h
      | cons y pre =>
        cases hl
        exact .inr ⟨pre, x, post, rfl, by simpa using h⟩

theorem partialOverlap_mem_enclosureFaults {outer : Option Shape} {a b : Int} :
    .partialOverlap a b ∈ enclosureFaults outer n ↔
      ∃ o, outer = some o ∧ ¬o.bounds.contains n.bounds = true ∧ o.id = a ∧ n.id = b := by
  cases outer with
  | none => simp [enclosureFaults]
  | some o =>
    by_cases h : o.bounds.contains n.bounds = true
    · simp [enclosureFaults, h]
    · simp [enclosureFaults, h, @eq_comm _ a, @eq_comm _ b]

theorem wrongParent_mem_enclosureFaults {outer : Option Shape} {id : Int}
    {recorded enclosing : Option Int} :
    .wrongParent id recorded enclosing ∈ enclosureFaults outer n ↔
      n.id = id ∧ n.parent = recorded ∧ outer.map (·.id) = enclosing ∧ recorded ≠ enclosing := by
  have hparent : .wrongParent id recorded enclosing ∈ enclosureFaults outer n ↔
      n.parent ≠ outer.map (·.id) ∧
        id = n.id ∧ recorded = n.parent ∧ enclosing = outer.map (·.id) := by
    cases outer with
    | none => simp [enclosureFaults]
    | some o => by_cases h : o.bounds.contains n.bounds = true <;> simp [enclosureFaults, h]
  rw [hparent]
  constructor
  · rintro ⟨hne, rfl, rfl, rfl⟩
    exact ⟨rfl, rfl, rfl, hne⟩
  · rintro ⟨rfl, rfl, rfl, hne⟩
    exact ⟨hne, rfl, rfl, rfl⟩

theorem lt_of_reaching_eq_none {pre : List Shape} {marker : Int}
    (h : reaching pre.reverse marker = none) : ∀ o ∈ pre, o.bounds.right < marker := by
  intro o ho
  have := List.find?_eq_none.1 h o (List.mem_reverse.2 ho)
  simpa using this

theorem split_of_reaching_eq_some {pre : List Shape} {marker : Int}
    (h : reaching pre.reverse marker = some o) : marker ≤ o.bounds.right ∧
      ∃ earlier later, pre = earlier ++ o :: later ∧ ∀ x ∈ later, x.bounds.right < marker := by
  obtain ⟨ho, as, bs, hsplit, has⟩ := List.find?_eq_some_iff_append.1 h
  refine ⟨of_decide_eq_true ho, bs.reverse, as.reverse, ?_, ?_⟩
  · rw [← List.reverse_reverse pre, hsplit]
    simp
  · intro x hx
    have := has x (List.mem_reverse.1 hx)
    simpa using this

/-! ### Without a crossing -/

theorem pairwise_admits_of_scan (hl : l.Pairwise fun a b => a.bounds.left ≤ b.bounds.left)
    (h : ∀ a b, .partialOverlap a b ∉ scan [] l) :
    l.Pairwise fun a b => a.bounds.Admits b.bounds := by
  induction l using List.reverseRecOn with
  | nil => exact .nil
  | append_singleton pre x ih =>
    simp only [scan_append, List.append_nil, List.mem_append, not_or] at h
    have hpre := ih (List.pairwise_append.1 hl).1 fun a b => (h a b).1
    refine List.pairwise_append.2 ⟨hpre, List.pairwise_singleton _ _, ?_⟩
    intro p hp y hy
    obtain rfl := List.mem_singleton.1 hy
    cases hr : reaching pre.reverse y.bounds.left with
    | none => exact .inl (lt_of_reaching_eq_none hr p hp)
    | some o =>
      have hoy : o.bounds.contains y.bounds = true := by
        by_contra hnot
        refine (h o.id y.id).2 ?_
        rw [scan, List.mem_append, hr]
        exact .inl (partialOverlap_mem_enclosureFaults.2 ⟨o, rfl, hnot, rfl, rfl⟩)
      obtain ⟨-, earlier, later, rfl, hlater⟩ := split_of_reaching_eq_some hr
      -- earlier ones are compared with the one found, later ones have ended
      rcases List.mem_append.1 hp with hp | hp
      · exact ((List.pairwise_append.1 hpre).2.2 p hp o List.mem_cons_self).of_contains hoy
      · rcases List.mem_cons.1 hp with rfl | hp
        · exact .inr hoy
        · exact .inl (hlater p hp)

/-- Where nothing crosses, a node is compared with the smallest interval around it. -/
theorem reaching_eq_encloser? {pre post : List Shape} {x : Shape} (hperm : nodes.Perm l)
    (hsplit : l = pre ++ x :: post) (hproper : ∀ n ∈ nodes, n.bounds.left < n.bounds.right)
    (hsorted : l.Pairwise fun a b => a.bounds.left ≤ b.bounds.left)
    (h : l.Pairwise fun a b => a.bounds.Admits b.bounds) :
    reaching pre.reverse x.bounds.left = encloser? nodes x := by
  subst hsplit
  obtain ⟨hpre, hxpost, hbefore⟩ := List.pairwise_append.1 h
  obtain ⟨-, hsorted, -⟩ := List.pairwise_append.1 hsorted
  -- whatever is around the node begins before it
  have hmem : ∀ m ∈ nodes, m.bounds.contains x.bounds = true → m ∈ pre := by
    intro m hm hmx
    have hlt := (Bounds.contains_iff.1 hmx).1
    rcases List.mem_append.1 (hperm.mem_iff.1 hm) with hm | hm
    · exact hm
    · rcases List.mem_cons.1 hm with rfl | hm
      · omega
      · have := (List.pairwise_cons.1 hsorted).1 m hm
        omega
  have hx : x.bounds.left < x.bounds.right := hproper x (hperm.mem_iff.2 (by simp))
  cases hr : reaching pre.reverse x.bounds.left with
  | none =>
    rw [encloser?_eq_none]
    intro m hm hmx
    have := lt_of_reaching_eq_none hr m (hmem m hm hmx)
    have := (Bounds.contains_iff.1 hmx).2
    omega
  | some o =>
    obtain ⟨hright, earlier, later, rfl, hlater⟩ := split_of_reaching_eq_some hr
    have hox : o.bounds.contains x.bounds = true := by
      rcases hbefore o (by simp) x List.mem_cons_self with hox | hox
      · omega
      · exact hox
    rw [encloser?_eq_some (hperm.mem_iff.2 (by simp)) hox]
    intro m hm hmx
    have hcontains := Bounds.contains_iff.1 hmx
    rcases List.mem_append.1 (hmem m hm hmx) with hm | hm
    · right
      rcases (List.pairwise_append.1 hpre).2.2 m hm o List.mem_cons_self with hmo | hmo
      · have := (Bounds.contains_iff.1 hox).1
        omega
      · exact hmo
    · rcases List.mem_cons.1 hm with rfl | hm
      · exact .inl rfl
      · have := hlater m hm
        omega

theorem countP_eq_add {α : Type} {p q r : α → Bool} {l : List α}
    (h : ∀ a ∈ l, (p a = true ↔ q a = true ∨ r a = true) ∧ ¬(q a = true ∧ r a = true)) :
    l.countP p = l.countP q + l.countP r := by
  induction l with
  | nil => rfl
  | cons a rest ih =>
    obtain ⟨ha, hrest⟩ := List.forall_mem_cons.1 h
    rw [List.countP_cons, List.countP_cons, List.countP_cons, ih hrest]
    cases hq : q a <;> cases hr : r a <;> simp [hq, hr] at ha <;> simp [ha] <;> omega

/-- Where nothing crosses a node, the left markers inside it are those of the nodes inside it. -/
theorem population_eq (hn : n.bounds.left < n.bounds.right)
    (hproper : ∀ m ∈ nodes, m.bounds.left < m.bounds.right)
    (h : ∀ m ∈ nodes, m ≠ n → ¬n.bounds.Crosses m.bounds) :
    population nodes n.bounds = 1 + nodes.countP fun m => n.bounds.contains m.bounds := by
  have hsum := @countP_eq_add _ (fun m : Shape => decide (m.bounds.left < n.bounds.right))
    (fun m => decide (m.bounds.left ≤ n.bounds.left)) (fun m => n.bounds.contains m.bounds) nodes ?_
  · rw [population, hsum]
    omega
  intro m hm
  simp only [decide_eq_true_eq, Bounds.contains_iff]
  have hmproper := hproper m hm
  by_cases hmn : m = n
  · subst hmn
    omega
  · have := h m hm hmn
    simp only [Bounds.Crosses, Bounds.contains_iff] at this
    omega

/-! ### The parts of the check -/

theorem exists_of_mem_firstGap {next : Int} {l : List Int} {v : Violation}
    (h : v ∈ firstGap next l) : ∃ expected found, v = .markersNotContiguous expected found := by
  induction l generalizing next with
  | nil => cases h
  | cons m rest ih =>
    rw [firstGap] at h
    split at h
    · exact ih h
    · exact ⟨next, m, List.mem_singleton.1 h⟩

theorem exists_of_mem_scan {before : List Shape} {v : Violation} (h : v ∈ scan before l) :
    (∃ a b, v = .partialOverlap a b) ∨
      ∃ id recorded enclosing, v = .wrongParent id recorded enclosing := by
  obtain ⟨pre, x, post, -, h⟩ := mem_scan_iff.1 h
  rcases List.mem_append.1 h with h | h
  · split at h
    · split at h
      · cases h
      · exact .inl ⟨_, _, List.mem_singleton.1 h⟩
    · cases h
  · simp only at h
    split at h
    · cases h
    · exact .inr ⟨_, _, _, List.mem_singleton.1 h⟩

theorem mem_violations_iff_of_sweep {v : Violation}
    (hv : (∃ a b, v = .partialOverlap a b) ∨
      ∃ id recorded enclosing, v = .wrongParent id recorded enclosing) :
    v ∈ violations nodes ↔ v ∈ scan [] (sorted nodes) := by
  have hgap : v ∉ firstGap 1 (markers (sorted nodes)) := by
    intro h
    obtain ⟨expected, found, rfl⟩ := exists_of_mem_firstGap h
    simp at hv
  have hparts : v ∉ emptyIntervals (sorted nodes) ∧ v ∉ spanMismatches (sorted nodes) ∧
      v ∉ rootFaults (sorted nodes) := by
    rcases hv with ⟨a, b, rfl⟩ | ⟨id, recorded, enclosing, rfl⟩ <;>
      simp [emptyIntervals, spanMismatches, rootFaults]
  by_cases hnil : nodes = []
  · subst hnil
    simp [violations, sorted, scan]
  · have hne : nodes.isEmpty = false := by simpa using hnil
    simp [violations, hne, hgap, hparts, sweep_eq_scan (pairwise_sorted nodes)]

theorem mem_spanMismatches_iff {id span size : Int} :
    .spanMismatch id span size ∈ spanMismatches l ↔ ∃ n ∈ l, n.id = id ∧
      n.bounds.span = span ∧ (population l n.bounds : Int) = size ∧ span ≠ size * 2 := by
  rw [spanMismatches, List.mem_filterMap]
  refine exists_congr fun n => and_congr_right fun _ => ?_
  simp only
  split
  next heq =>
    simp only [reduceCtorEq, false_iff]
    rintro ⟨-, rfl, rfl, hne⟩
    exact hne heq
  next hne =>
    simp only [Option.some.injEq, Violation.spanMismatch.injEq]
    constructor
    · rintro ⟨rfl, rfl, rfl⟩
      exact ⟨rfl, rfl, rfl, hne⟩
    · rintro ⟨rfl, rfl, rfl, -⟩
      exact ⟨rfl, rfl, rfl⟩

theorem spanMismatch_mem_violations {id span size : Int} :
    .spanMismatch id span size ∈ violations nodes ↔ ∃ n ∈ nodes, n.id = id ∧
      n.bounds.span = span ∧ (population nodes n.bounds : Int) = size ∧ span ≠ size * 2 := by
  have hmem : .spanMismatch id span size ∈ violations nodes ↔
      .spanMismatch id span size ∈ spanMismatches (sorted nodes) := by
    have hgap : .spanMismatch id span size ∉ firstGap 1 (markers (sorted nodes)) := by
      intro h
      obtain ⟨expected, found, ⟨⟩⟩ := exists_of_mem_firstGap h
    have hscan : .spanMismatch id span size ∉ scan [] (sorted nodes) := by
      intro h
      obtain ⟨a, b, ⟨⟩⟩ | ⟨id, recorded, enclosing, ⟨⟩⟩ := exists_of_mem_scan h
    by_cases hnil : nodes = []
    · subst hnil
      simp [violations, sorted, spanMismatches]
    · have hne : nodes.isEmpty = false := by simpa using hnil
      simp [violations, hne, hgap, hscan, emptyIntervals, rootFaults,
        sweep_eq_scan (pairwise_sorted nodes)]
  have hpopulation : ∀ b, population (sorted nodes) b = population nodes b := by
    intro b
    simp only [population, (perm_sorted nodes).countP_eq]
  simp only [hmem, mem_spanMismatches_iff, (perm_sorted nodes).mem_iff, hpopulation]

/-! ### Crossings and what is found -/

section

variable (hids : (nodes.map (·.id)).Nodup)
  (hproper : ∀ n ∈ nodes, n.bounds.left < n.bounds.right)

include hids hproper

theorem crosses_of_partialOverlap {a b : Int} (h : .partialOverlap a b ∈ violations nodes) :
    ∃ m ∈ nodes, ∃ n ∈ nodes, m.id = a ∧ n.id = b ∧ m ≠ n ∧ m.bounds.Crosses n.bounds := by
  rw [mem_violations_iff_of_sweep (.inl ⟨a, b, rfl⟩), mem_scan_iff] at h
  obtain ⟨pre, n, post, hsplit, h⟩ := h
  rw [List.append_nil] at h
  obtain ⟨m, hm, hnot, rfl, rfl⟩ := partialOverlap_mem_enclosureFaults.1 h
  obtain ⟨hright, earlier, later, rfl, -⟩ := split_of_reaching_eq_some hm
  have hmem : m ∈ nodes := (perm_sorted nodes).mem_iff.1 (by simp [hsplit])
  have hn : n ∈ nodes := (perm_sorted nodes).mem_iff.1 (by simp [hsplit])
  have hsorted := pairwise_sorted nodes
  have hnodup : (sorted nodes).Nodup := (perm_sorted nodes).nodup_iff.2 hids.of_map
  rw [hsplit] at hsorted hnodup
  have hle := (List.pairwise_append.1 hsorted).2.2 m (by simp) n List.mem_cons_self
  have hne := (List.pairwise_append.1 hnodup).2.2 m (by simp) n List.mem_cons_self
  refine ⟨m, hmem, n, hn, rfl, rfl, hne, ?_⟩
  by_contra hcross
  rcases (Bounds.not_crosses_iff hle (hproper n hn)).1 hcross with hbehind | hinside
  · omega
  · exact hnot hinside

omit hids in
theorem exists_partialOverlap {m n : Shape} (hm : m ∈ nodes) (hn : n ∈ nodes) (hne : m ≠ n)
    (hcross : m.bounds.Crosses n.bounds) : ∃ a b, .partialOverlap a b ∈ violations nodes := by
  by_contra hnone
  push Not at hnone
  have hpairs := pairwise_admits_of_scan (pairwise_sorted nodes) fun a b h =>
    hnone a b ((mem_violations_iff_of_sweep (.inl ⟨a, b, rfl⟩)).2 h)
  have hapart : (sorted nodes).Pairwise fun a b => ¬a.bounds.Crosses b.bounds := by
    refine ((pairwise_sorted nodes).and hpairs).imp_of_mem ?_
    intro a b _ hb hab
    exact (Bounds.not_crosses_iff hab.1 (hproper b ((perm_sorted nodes).mem_iff.1 hb))).2 hab.2
  have hsymm : Std.Symm fun a b : Shape => ¬a.bounds.Crosses b.bounds :=
    ⟨fun _ _ h hba => h hba.symm⟩
  exact hapart.forall ((perm_sorted nodes).mem_iff.2 hm) ((perm_sorted nodes).mem_iff.2 hn) hne
    hcross

theorem wrongParent_mem_violations
    (hnone : ∀ m ∈ nodes, ∀ n ∈ nodes, m ≠ n → ¬m.bounds.Crosses n.bounds) {id : Int}
    {recorded enclosing : Option Int} :
    .wrongParent id recorded enclosing ∈ violations nodes ↔
      ∃ n ∈ nodes, n.id = id ∧ n.parent = recorded ∧
        (encloser? nodes n).map (·.id) = enclosing ∧ recorded ≠ enclosing := by
  have hperm := perm_sorted nodes
  have hnodup : (sorted nodes).Nodup := hperm.nodup_iff.2 hids.of_map
  have hpairs : (sorted nodes).Pairwise fun a b => a.bounds.Admits b.bounds := by
    refine ((pairwise_sorted nodes).and hnodup).imp_of_mem ?_
    intro a b ha hb hab
    exact (Bounds.not_crosses_iff hab.1 (hproper b (hperm.mem_iff.1 hb))).1
      (hnone a (hperm.mem_iff.1 ha) b (hperm.mem_iff.1 hb) hab.2)
  have hreaching : ∀ {pre n post}, sorted nodes = pre ++ n :: post →
      reaching (pre.reverse ++ []) n.bounds.left = encloser? nodes n := by
    intro pre n post hsplit
    rw [List.append_nil]
    exact reaching_eq_encloser? hperm.symm hsplit hproper (pairwise_sorted nodes) hpairs
  rw [mem_violations_iff_of_sweep (.inr ⟨id, recorded, enclosing, rfl⟩), mem_scan_iff]
  constructor
  · rintro ⟨pre, n, post, hsplit, h⟩
    rw [hreaching hsplit, wrongParent_mem_enclosureFaults] at h
    exact ⟨n, hperm.mem_iff.1 (by simp [hsplit]), h⟩
  · rintro ⟨n, hn, h⟩
    obtain ⟨pre, post, hsplit⟩ := List.append_of_mem (hperm.mem_iff.2 hn)
    exact ⟨pre, n, post, hsplit, by rwa [hreaching hsplit, wrongParent_mem_enclosureFaults]⟩

end

end Nesting

open Nesting

/-- Where each node has an id and a proper interval of its own, with a span of 64 bits: a crossing
that is reported is one, and if there are crossings one is reported. If there are none, the parents
reported are those other than the smallest interval around, and the spans those that do not fit the
nodes inside. -/
theorem violations_diagnose {nodes : List Shape} (hids : (nodes.map (·.id)).Nodup)
    (hproper : ∀ n ∈ nodes, n.bounds.left < n.bounds.right)
    (hspans : ∀ n ∈ nodes, IsStorable n.bounds.span) :
    (∀ a b, .partialOverlap a b ∈ violations nodes →
      ∃ m ∈ nodes, ∃ n ∈ nodes, m.id = a ∧ n.id = b ∧ m ≠ n ∧ m.bounds.Crosses n.bounds) ∧
    ((∃ m ∈ nodes, ∃ n ∈ nodes, m ≠ n ∧ m.bounds.Crosses n.bounds) →
      ∃ a b, .partialOverlap a b ∈ violations nodes) ∧
    ((∀ m ∈ nodes, ∀ n ∈ nodes, m ≠ n → ¬m.bounds.Crosses n.bounds) →
      (∀ (id : Int) (recorded enclosing : Option Int),
        .wrongParent id recorded enclosing ∈ violations nodes ↔
          ∃ n ∈ nodes, n.id = id ∧ n.parent = recorded ∧
            (encloser? nodes n).map (·.id) = enclosing ∧ recorded ≠ enclosing) ∧
      ∀ id span size : Int, .spanMismatch id span size ∈ violations nodes ↔
        ∃ n ∈ nodes, n.id = id ∧ n.bounds.span = span ∧ IsStorable span ∧
          size = 1 + nodes.countP (fun m => n.bounds.contains m.bounds) ∧ span ≠ 2 * size) := by
  refine ⟨fun a b => crosses_of_partialOverlap hids hproper, ?_, ?_⟩
  · rintro ⟨m, hm, n, hn, hne, hcross⟩
    exact exists_partialOverlap hproper hm hn hne hcross
  · intro hnone
    refine ⟨fun id recorded enclosing => wrongParent_mem_violations hids hproper hnone, ?_⟩
    intro id span size
    rw [spanMismatch_mem_violations]
    refine exists_congr fun n => and_congr_right fun hn => and_congr_right fun _ =>
      and_congr_right fun hspan => ?_
    have hstorable : IsStorable span := hspan ▸ hspans n hn
    rw [population_eq (hproper n hn) hproper fun m hm hne => hnone n hn m hm hne.symm,
      mul_comm size, eq_comm, and_iff_right hstorable]
    push_cast
    rfl

/-- Two siblings that share a marker cross. Without a crossing: a node that records the parent of
its parent, and a gap in the span of that parent. -/
theorem violations_diagnose_samples :
    let touching : List Shape := [⟨1, ⟨1, 6⟩, none⟩, ⟨2, ⟨2, 4⟩, some 1⟩, ⟨3, ⟨4, 5⟩, some 1⟩]
    let gapped : List Shape := [⟨3, ⟨4, 5⟩, some 1⟩, ⟨1, ⟨1, 10⟩, none⟩, ⟨2, ⟨2, 7⟩, some 1⟩]
    (∃ a b, .partialOverlap a b ∈ violations touching) ∧
      .wrongParent 3 (some 1) (some 2) ∈ violations gapped ∧
      .spanMismatch 2 6 2 ∈ violations gapped := by
  intro touching gapped
  have hcross := (@violations_diagnose touching (by decide) (by decide) (by decide)).2.1
  obtain ⟨hparents, hspans⟩ :=
    (@violations_diagnose gapped (by decide) (by decide) (by decide)).2.2 (by decide)
  refine ⟨hcross (by decide), (hparents _ _ _).2 ?_, (hspans _ _ _).2 ?_⟩
  · exact ⟨⟨3, ⟨4, 5⟩, some 1⟩, by decide⟩
  · exact ⟨⟨2, ⟨2, 7⟩, some 1⟩, by decide⟩

end NestedSet
