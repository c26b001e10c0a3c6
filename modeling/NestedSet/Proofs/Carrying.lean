import Mathlib
import NestedSet.Proofs.Gaps

/-!
# A subtree is carried as one block

The room for a subtree opens behind a marker that lies outside of it. So the
subtree goes up as a whole or stays as a whole, its range still takes in its own
nodes and no others, and these go from a range that nobody else is in to one
that nobody is in.
-/

set_option autoImplicit false

namespace NestedSet

namespace Bounds

variable {node b : Bounds} {pivot width : Int}

theorem within_pushed_iff (hw : 0 ≤ width) :
    ((node.pushed pivot width).left ≤ (b.pushed pivot width).left ∧
      (b.pushed pivot width).right ≤ (node.pushed pivot width).right) ↔
    node.left ≤ b.left ∧ b.right ≤ node.right :=
  and_congr (raised_le_iff hw) (raised_le_iff hw)

theorem pushed_of_outside (hnode : node.left < node.right)
    (hpivot : pivot < node.left ∨ node.right < pivot) :
    node.pushed pivot width = if pivot < node.left then node.shifted width else node := by
  split
  next h => exact pushed_of_lt h (by omega)
  next h => exact pushed_of_le (by omega) (by omega)

theorem span_pushed (hnode : node.left < node.right)
    (hpivot : pivot < node.left ∨ node.right < pivot) :
    (node.pushed pivot width).span = node.span := by
  rw [pushed_of_outside hnode hpivot]
  split
  · exact span_shifted ..
  · rfl

/-- Once the subtree is carried into the room, nothing is left in the range that it comes from. -/
theorem carried_outside (hnode : node.left < node.right)
    (hpivot : pivot < node.left ∨ node.right < pivot) (hb : b.left < b.right)
    (h : (node.left ≤ b.left ∧ b.right ≤ node.right) ∨ node.Apart b) :
    let current := node.pushed pivot node.span
    current.Apart
      (carried current (relocationOffset pivot current) (b.pushed pivot node.span)) := by
  have hspan : 0 ≤ node.span := by
    simp only [span]
    omega
  have hwithin := @within_pushed_iff node b pivot node.span hspan
  intro current
  by_cases hin : node.left ≤ b.left ∧ b.right ≤ node.right
  · rw [carried, if_pos (hwithin.2 hin)]
    rcases hpivot with hpivot | hpivot
    · -- the subtree has made way and comes back to below the range that it has now
      have hcurrent : current = node.shifted node.span := pushed_of_lt hpivot (by omega)
      rw [hcurrent, pushed_of_lt (by omega) (by omega)]
      simp only [Apart, shifted, relocationOffset, span]
      omega
    · have hcurrent : current = node := pushed_of_le (by omega) hpivot.le
      rw [hcurrent, pushed_of_le (by omega) (by omega)]
      simp only [Apart, shifted, relocationOffset]
      omega
  · obtain ⟨hleft, hright⟩ := h.resolve_left hin
    rw [carried, if_neg (mt hwithin.1 hin)]
    exact ⟨hleft.imp (raised_lt_iff hspan).2 (raised_lt_iff hspan).2,
      hright.imp (raised_lt_iff hspan).2 (raised_lt_iff hspan).2⟩

end Bounds

namespace Editing

open Procedure

variable {s : Schema} {l : Ledger} {f : Forest Item} {node target : Node} {tie : Tie}

theorem yields_examine (s : Schema) (l : Ledger) (id : Int) (tie : Tie) (targetId : Int) :
    (examine id tie targetId).Yields s l fun answer l' => l' = l ∧
      ∀ node target parent, answer = .ok (node, target, parent) →
        (node ∈ l.nodes ∧ node.id = id) ∧ (target ∈ l.nodes ∧ target.id = targetId) ∧
          node.bounds.contains target.bounds = false := by
  unfold examine
  refine yields_element ?_ fun _ => ⟨rfl, by simp⟩
  intro target htarget htid
  refine yields_element ?_ fun _ => ⟨rfl, by simp⟩
  intro node hnode hid
  split
  · exact ⟨rfl, fun _ _ _ h => by cases h⟩
  next hout =>
    cases tie.parent? target with
    | none => exact ⟨rfl, fun _ _ _ h => by cases h⟩
    | some parent =>
      refine ⟨rfl, ?_⟩
      rintro _ _ _ ⟨⟩
      exact ⟨⟨hnode, hid⟩, ⟨htarget, htid⟩, by simpa using hout⟩

theorem yields_reopened {parent : Int} (hl : l.nodes = f.nodes) (hf : f.ids.Nodup)
    (hroom : f.size ≤ Table.capacity) (hn : node ∈ f.nodes) (ht : target ∈ f.nodes) :
    let pivot := (tie.anchor target.bounds).pivot
    (reopen node tie target parent).Yields s l fun answer l' =>
      ∃ target' current, answer = .ok (target', current) ∧
        (tie.anchor target'.bounds).pivot = pivot ∧
        current.bounds = node.bounds.pushed pivot node.bounds.span ∧
        l'.nodes = (f.nodes.map (Node.onBounds (Bounds.pushed pivot node.bounds.span))).map
          (Node.reparented node.id parent) ∧
        (∀ n ∈ l'.nodes, n.Within (4 * f.size)) ∧
        4 * f.size + (relocationOffset pivot current.bounds).natAbs ≤ 64 * Table.capacity := by
  intro pivot
  refine yields_reopen (.of_eq hl) hf hroom hn ht ?_
  intro pushed target' current htarget _ hcurrent
  have hcapacity := Table.capacity_pos
  have hoffset := (reach_reopened hn ht hcurrent).1
  refine ⟨target', current, rfl, ?_, hcurrent, by rw [hl],
    within_reopened (.of_eq hl) hn pivot parent, ?_⟩
  · rw [htarget, Tie.pivot_pushed, raised, if_neg (Int.lt_irrefl _)]
  · change (relocationOffset pivot current.bounds).natAbs ≤ _ at hoffset
    omega

end Editing

/-! ### Room for a subtree -/

namespace Schema

variable {s : Schema} {db : Database} {t : Table} {l : Ledger} {f : Forest Item} {node : Node}
  {parent pivot : Int}

theorem Reads.clear {nodes : List Node} {range : Bounds} (h : s.Reads t nodes)
    (hn : ∀ n ∈ nodes, range.Apart n.bounds) : s.Clear t range := by
  refine clear_of_outlines fun r hr => ?_
  obtain ⟨n, hmem, hshown⟩ := h.exists_shown hr
  exact ⟨n, Record.outlines_of_node hshown, hn n hmem⟩

/-- In the table room has been made behind the pivot for the subtree of a node, of all the nodes
there were. The node is at `current`. -/
structure Opened (s : Schema) (t : Table) (nodes : List Node) (node : Node) (pivot : Int)
    (current : Bounds) : Prop where
  ids : ((s.scope t).map (·.id)).Perm (nodes.map (·.id))
  whole : current = if pivot < node.left then node.bounds.shifted node.bounds.span else node.bounds
  span : current.span = node.bounds.span
  block : ∀ offset, ∀ r ∈ t.rows,
    ((Change.shiftInside current offset).onRows s t).selects r = true ↔
      s.inScope t r = true ∧
        (r.id = node.id ∨ Relation.TransGen (IsParent nodes) node.id r.id)
  room : s.Clear t ⟨pivot + 1, pivot + node.bounds.span⟩

/-- The rows when room has been made and the node has its new parent. -/
theorem opened_of_keeps (hf : f.ids.Nodup) (hn : node ∈ f.nodes)
    (hpivot : pivot < node.left ∨ node.right < pivot) (hk : Keeps s db t l)
    (hl : l.nodes = (f.nodes.map (Node.onBounds (Bounds.pushed pivot node.bounds.span))).map
      (Node.reparented node.id parent)) :
    s.Opened t f.nodes node pivot (node.bounds.pushed pivot node.bounds.span) := by
  have hnode := (Forest.bounds_of_mem_nodes hn).2
  have hspan : 0 ≤ node.bounds.span := by
    simp only [Bounds.span, Node.bounds]
    omega
  constructor
  case ids =>
    refine hk.perm_ids.trans (.of_eq ?_)
    rw [hl, List.map_map, List.map_map]
    rfl
  case whole => exact Bounds.pushed_of_outside hnode hpivot
  case span => exact Bounds.span_pushed hnode hpivot
  case block =>
    intro offset r hr
    cases hin : s.inScope t r with
    | false => simp [Change.onRows, Revision.through, hin]
    | true =>
      obtain ⟨n', hn', hshown⟩ := hk.reads.exists_shown (List.mem_filter.2 ⟨hr, hin⟩)
      rw [hl] at hn'
      obtain ⟨_, hmem, rfl⟩ := List.mem_map.1 hn'
      obtain ⟨n, hn₀, rfl⟩ := List.mem_map.1 hmem
      have hid : r.id = n.id := (id_of_shown hk.declares hshown).symm
      have hsame : node = n ↔ n.id = node.id :=
        ⟨fun h => congrArg Node.id h.symm, fun h => Forest.eq_of_mem_nodes hf hn hn₀ h.symm⟩
      have hwithin := (@Bounds.within_pushed_iff node.bounds n.bounds pivot _ hspan).trans
        (Forest.around_iff hn hn₀)
      rw [Change.selects_onRows _ hin (Record.outlines_of_node hshown), hid,
        Forest.transGen_isParent_iff hf hn hn₀, ← hsame, ← hwithin]
      simp only [Change.picks, Bool.and_eq_true, decide_eq_true_eq, true_and]
      rfl
  case room =>
    refine hk.reads.clear ?_
    simp only [hl, List.forall_mem_map]
    exact fun n _ => ⟨raised_outside .., raised_outside ..⟩

theorem clear_of_keeps (hn : node ∈ f.nodes) (hpivot : pivot < node.left ∨ node.right < pivot)
    (hl : l.nodes = (f.nodes.map (Node.onBounds (Bounds.pushed pivot node.bounds.span))).map
      (Node.reparented node.id parent)) {current : Bounds}
    (hcurrent : current = node.bounds.pushed pivot node.bounds.span)
    (hk : Keeps s db t (l.onBounds (Bounds.carried current (relocationOffset pivot current)))) :
    s.Clear t current := by
  refine hk.reads.clear ?_
  simp only [Ledger.onBounds, hl, hcurrent, List.forall_mem_map]
  exact fun n hn₀ => Bounds.carried_outside (b := n.bounds) (Forest.bounds_of_mem_nodes hn).2
    hpivot (Forest.bounds_of_mem_nodes hn₀).2 (Forest.inside_or_apart hn hn₀)

end Schema

/-! ### The phases of a move at a desk -/

theorem Desk.Calm.exists_result_of_yields {α : Type} {s : Schema} (hs : s.Sound) {d : Desk}
    (hd : d.Calm) {p : Procedure α} (hissues : p.Issues fun q => q.bringsNothing = true)
    (hhonest : p.Honest) {t : Table} {l : Ledger} (hk : Keeps s d.database t l)
    {post : Except TreeError α → Ledger → Prop} (hy : p.Yields s l post) :
    ∃ answer d' t' l', p.result s d = (answer, d') ∧ d'.Calm ∧ Keeps s d'.database t' l' ∧
      post answer l' := by
  obtain ⟨answer, db, hends, hfaults⟩ := Procedure.exists_ends_of_issues hs hissues hy hk hd.faults
  obtain ⟨d', hresult, -, hd'⟩ := hd.exists_result hends hfaults
  obtain ⟨t', l', hk', -, ⟨step, refusal, hrefusal⟩ | hpost⟩ :=
    Procedure.result_of_yields hs hy hk hresult
  · exact absurd hrefusal (Procedure.ne_backend_of_ends hhonest hends step refusal)
  · exact ⟨answer, d', t', l', hresult, hd', hk', hpost⟩

/-- Where nothing is wrong with a tree, a move that has been found possible finds, once room has
been made, the subtree in a range of its old width that takes in the rows of the subtree and no
others. The room behind the target's marker, as it is then, is free. And when the subtree has been
carried there, so is the range that it comes from. -/
theorem subtree_is_carried_as_one_block {s : Schema} (hs : s.Sound) {d d₀ : Desk} {t : Table}
    (hf : s.Filed d.database t) (hc : Reading.check (s.recordsOf t) = .ok []) {id targetId : Int}
    (hne : targetId ≠ id) {tie : Editing.Tie} {node target : Node} {parent : Int}
    (hexamined : (Editing.examine id tie targetId).result s d =
      (.ok (node, target, parent), d₀)) :
    (Editing.move id (tie.placement targetId) = do
      let (node, target, parent) ← Editing.examine id tie targetId
      let (target, current) ← Editing.reopen node tie target parent
      let offset := relocationOffset (tie.anchor target.bounds).pivot current.bounds
      Editing.shift current.bounds offset
      Editing.collapse current.bounds
      Procedure.tell (.moved node.id parent (current.bounds.shifted offset))
      return .moved) ∧
    ∃ nodes, Reading.nodes (s.recordsOf t) = .ok nodes ∧ (node ∈ nodes ∧ node.id = id) ∧
      (target ∈ nodes ∧ target.id = targetId) ∧
      (∀ target' current d₁,
        (Editing.reopen node tie target parent).result s d₀ = (.ok (target', current), d₁) →
        let pivot := (tie.anchor target'.bounds).pivot
        pivot = (tie.anchor target.bounds).pivot ∧
        (∃ t₁, d₁.database.table? s.table = some t₁ ∧
          s.Opened t₁ nodes node pivot current.bounds) ∧
        ∀ d₂, (Editing.shift current.bounds (relocationOffset pivot current.bounds)).result s d₁ =
            (.ok (), d₂) →
          ∃ t₂, d₂.database.table? s.table = some t₂ ∧ s.Clear t₂ current.bounds) ∧
      (d.Calm → ∃ target' current d₁ d₂,
        (Editing.reopen node tie target parent).result s d₀ = (.ok (target', current), d₁) ∧
        (Editing.shift current.bounds (relocationOffset (tie.anchor target'.bounds).pivot
          current.bounds)).result s d₁ = (.ok (), d₂)) := by
  obtain ⟨f, hst⟩ := Schema.exists_stands hf hc
  have hids := hst.nodup_ids
  have hlook := Editing.yields_examine s ⟨f.nodes, .unknown⟩ id tie targetId
  obtain ⟨t₀, _, hk₀, -, ⟨step, refusal, ⟨⟩⟩ | ⟨rfl, hpassed⟩⟩ :=
    Procedure.result_of_yields hs hlook hst.keeps hexamined
  obtain ⟨⟨hn, hid⟩, ⟨ht, htarget⟩, hnot⟩ := hpassed node target parent rfl
  have hout := tie.pivot_outside hn ht (by rwa [htarget, hid]) hnot
  have hreopen :=
    @Editing.yields_reopened s ⟨f.nodes, .unknown⟩ f node target tie parent rfl hids hst.size_le
      hn ht
  refine ⟨?_, f.nodes, hst.keeps.reads.nodes_eq, ⟨hn, hid⟩, ⟨ht, htarget⟩, ?_, ?_⟩
  · rw [← Editing.moveTo_eq hne]
    cases tie <;> rfl
  · intro target' current d₁ hopened pivot
    obtain ⟨t₁, l₁, hk₁, -,
        ⟨step, refusal, ⟨⟩⟩ | ⟨_, _, ⟨⟩, hpivot, hcurrent, hl₁, hwithin, hreach⟩⟩ :=
      Procedure.result_of_yields hs hreopen hk₀ hopened
    rw [← hpivot] at hout hcurrent hl₁ hreach
    refine ⟨hpivot, ⟨t₁, hk₁.found, ?_⟩, fun d₂ hshifted => ?_⟩
    · rw [hcurrent]
      exact Schema.opened_of_keeps hids hn hout hk₁ hl₁
    · obtain ⟨t₂, l₂, hk₂, -, ⟨step, refusal, ⟨⟩⟩ | ⟨-, rfl⟩⟩ :=
        Procedure.result_of_yields hs (Editing.yields_shifted s hwithin _ hreach) hk₁ hshifted
      exact ⟨t₂, hk₂.found, Schema.clear_of_keeps hn hout hl₁ hcurrent hk₂⟩
  · intro hcalm
    have hfree : ∀ c : Change, (∀ id values, c ≠ .payload id values) →
        (Request.revise c).bringsNothing = true :=
      fun _ => Request.bringsNothing_of_not_payload
    obtain ⟨_, _, -, -, hlooked, hcalm₀, -⟩ := hcalm.exists_result_of_yields hs
      (Editing.issues_examine fun _ => rfl) (Editing.honest_examine _ _ _) hst.keeps hlook
    obtain ⟨-, rfl⟩ := Prod.mk.inj (hlooked.symm.trans hexamined)
    obtain ⟨_, d₁, t₁, l₁, hopened, hcalm₁, hk₁, target', current, rfl, hpivot, -, -, hwithin,
        hreach⟩ :=
      hcalm₀.exists_result_of_yields hs (Editing.issues_reopen (fun _ => rfl) hfree)
        (Editing.honest_reopen _ _ _ _) hk₀ hreopen
    rw [← hpivot] at hreach
    obtain ⟨_, d₂, -, -, hshifted, -, -, rfl, -⟩ := hcalm₁.exists_result_of_yields hs
      (Editing.issues_shift rfl) (Editing.honest_shift _ _) hk₁
      (Editing.yields_shifted s hwithin _ hreach)
    exact ⟨target', current, d₁, d₂, hopened, hshifted⟩

/-- In the tree `1(3(4) 2)` the second node goes below the third one. It makes way itself, by its
own width, and leaves the range from 8 to 9. -/
theorem subtree_is_carried_as_one_block_branch :
    let s := plainHandle.schema
    let d : Desk := { database := branchStore.committed }
    let node : Node := ⟨2, 6, 7, some 1, []⟩
    let target : Node := ⟨3, 2, 5, some 1, []⟩
    (Editing.examine 2 .firstChild 3).result s d = (.ok (node, target, 3), d) ∧
      ∃ nodes target' current d₁ d₂ t₁ t₂,
        (Editing.reopen node .firstChild target 3).result s d = (.ok (target', current), d₁) ∧
        (Editing.shift current.bounds (relocationOffset 2 current.bounds)).result s d₁ =
          (.ok (), d₂) ∧
        d₁.database.table? s.table = some t₁ ∧ s.Opened t₁ nodes node 2 ⟨8, 9⟩ ∧
        d₂.database.table? s.table = some t₂ ∧ s.Clear t₂ ⟨8, 9⟩ := by
  intro s d node target
  obtain ⟨t, hst, hf⟩ := filed_branch
  have hc : Reading.check (s.recordsOf t) = .ok [] := hst.keeps.reads.check_eq hst.isTree
  have hexamined : (Editing.examine 2 .firstChild 3).result s d = (.ok (node, target, 3), d) := by
    decide +kernel
  obtain ⟨-, nodes, -, -, -, hcarried, hruns⟩ :=
    subtree_is_carried_as_one_block sound_plainHandle hf hc (by decide) hexamined
  obtain ⟨target', current, d₁, d₂, hopened, hshifted⟩ := hruns ⟨rfl, rfl, rfl⟩
  obtain ⟨hpivot, ⟨t₁, ht₁, hopen⟩, hclear⟩ := hcarried target' current d₁ hopened
  obtain ⟨t₂, ht₂, hvacated⟩ := hclear d₂ hshifted
  change (Editing.Tie.firstChild.anchor target'.bounds).pivot = 2 at hpivot
  rw [hpivot] at hshifted hopen
  have hcurrent : current.bounds = ⟨8, 9⟩ := hopen.whole
  rw [hcurrent] at hopen hvacated
  exact ⟨hexamined, nodes, target', current, d₁, d₂, t₁, t₂, hopened, hshifted, ht₁, hopen, ht₂,
    hvacated⟩

end NestedSet
