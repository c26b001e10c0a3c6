import Mathlib
import NestedSet.Proofs.Phases
import NestedSet.Proofs.Planting

/-!
# The edits on ledgers

Each edit, issued against a ledger that holds the nodes of a forest, answers
what the same edit of the forest answers, and leaves the nodes of the forest
that it makes.
-/

set_option autoImplicit false

namespace NestedSet

/-! ### The changes of nodes as functions on ranges -/

namespace Change

variable (s : Schema) (n : Node)

theorem onNode_push (pivot width : Int) :
    (pushRights pivot width).onNode s ((pushLefts pivot width).onNode s n) =
      n.onBounds (Bounds.pushed pivot width) := by
  by_cases hl : pivot < n.left <;> by_cases hr : pivot < n.right <;>
    simp [onNode, picks, revised, Node.onBounds, Node.bounds, Bounds.pushed, hl, hr]

theorem onNode_pullFollowing (gap : Bounds) :
    (pullFollowing gap).onNode s n = n.onBounds (Bounds.following gap) := by
  by_cases h : gap.left < n.left <;>
    simp [onNode, picks, revised, Node.onBounds, Node.bounds, Bounds.following, h]

theorem onNode_pullEnclosing (gap : Bounds) :
    (pullEnclosing gap).onNode s n = n.onBounds (Bounds.enclosing gap) := by
  by_cases h : n.left < gap.left ∧ gap.right < n.right <;>
    simp [onNode, picks, revised, Node.onBounds, Node.bounds, Bounds.enclosing, h]

theorem onNode_shiftInside (subtree : Bounds) (offset : Int) :
    (shiftInside subtree offset).onNode s n = n.onBounds (Bounds.carried subtree offset) := by
  by_cases h : subtree.left ≤ n.left ∧ n.right ≤ subtree.right <;>
    simp [onNode, picks, revised, Node.onBounds, Node.bounds, Bounds.carried, h]

theorem onNode_reparent (id parent : Int) :
    (reparent id parent).onNode s n = n.reparented id parent := by
  by_cases h : n.id = id <;> simp [onNode, picks, revised, Node.reparented, h]

end Change

theorem Node.Within.pushed {bound : Nat} {n : Node} (h : n.Within bound) (pivot width : Int) :
    (n.onBounds (Bounds.pushed pivot width)).Within (bound + width.natAbs) := by
  simp only [Within, Node.onBounds, Bounds.pushed, Node.bounds] at h ⊢
  split_ifs <;> omega

theorem Node.Within.carried {bound : Nat} {n : Node} (h : n.Within bound) (subtree : Bounds)
    (offset : Int) :
    (n.onBounds (Bounds.carried subtree offset)).Within (bound + offset.natAbs) := by
  by_cases hin : subtree.left ≤ n.left ∧ n.right ≤ subtree.right <;>
    simp only [Within, Node.onBounds, Bounds.carried, Node.bounds, hin, and_self, if_true,
      if_false, Bounds.shifted] at h ⊢ <;> omega

namespace Editing

open Procedure

variable {α β : Type} {s : Schema} {l : Ledger} {post : Except TreeError β → Ledger → Prop}

theorem yields_element {id : Int} {k : Node → Procedure β}
    (hfound : ∀ n ∈ l.nodes, n.id = id → (k n).Yields s l post)
    (hmissing : (∀ n ∈ l.nodes, n.id ≠ id) → post (.error (.notFound id)) l) :
    (element id >>= k).Yields s l post := by
  refine ⟨⟨trivial, trivial⟩, ?_⟩
  rintro found l' ⟨rfl, hiff⟩
  cases found with
  | none =>
    apply hmissing
    intro n hn hid
    cases (hiff n).2 ⟨hn, hid⟩
  | some n =>
    obtain ⟨hn, hid⟩ := (hiff n).1 rfl
    exact hfound n hn hid

theorem yields_reviseTwice {bound : Nat} (hwithin : ∀ n ∈ l.nodes, n.Within bound) {c c' : Change}
    (hproper : ∀ d ∈ [c, c'], (Request.revise d).Proper s)
    (hreach : bound + c.reach + c'.reach ≤ 64 * Table.capacity)
    {k : Nat → Nat → Procedure β}
    (h : ∀ rows rows', (k rows rows').Yields s
      { l with nodes := l.nodes.map fun n => c'.onNode s (c.onNode s n) } post) :
    (do
      let rows ← request (.revise c)
      let rows' ← request (.revise c')
      k rows rows').Yields s l post := by
  refine ⟨⟨hproper c (by simp), Request.inReach_of_within hwithin (by omega)⟩, ?_⟩
  rintro (rows : Nat) l₁ ⟨-, rfl⟩
  refine ⟨⟨hproper c' (by simp), Request.inReach_of_within ?_ hreach⟩, ?_⟩
  · exact List.forall_mem_map.2 fun n hn => (hwithin n hn).onNode s c
  rintro (rows' : Nat) l₂ ⟨-, rfl⟩
  simp only [List.map_map, Function.comp_def]
  exact h rows rows'

theorem yields_makeRoom {bound : Nat} (hwithin : ∀ n ∈ l.nodes, n.Within bound)
    {pivot width : Int} (hreach : bound + 2 * width.natAbs ≤ 64 * Table.capacity)
    {k : Unit → Procedure β} (h : (k ()).Yields s (l.onBounds (Bounds.pushed pivot width)) post) :
    (makeRoom pivot width >>= k).Yields s l post := by
  refine yields_reviseTwice hwithin (by simp [Request.Proper]) ?_
    (k := fun lefts rights => tell (.madeRoom pivot width lefts rights) >>= k) fun rows rows' => ?_
  · simp only [Change.reach]
    omega
  · simp only [Change.onNode_push]
    exact h

theorem yields_collapse {bound : Nat} (hwithin : ∀ n ∈ l.nodes, n.Within bound) {gap : Bounds}
    (hreach : bound + 2 * gap.span.natAbs ≤ 64 * Table.capacity) {k : Unit → Procedure β}
    (h : (k ()).Yields s (l.onBounds (Bounds.closed gap)) post) :
    (collapse gap >>= k).Yields s l post := by
  refine yields_reviseTwice hwithin (by simp [Request.Proper]) ?_
    (k := fun following enclosing => tell (.closedGap gap following enclosing) >>= k)
    fun rows rows' => ?_
  · simp only [Change.reach]
    omega
  · simp only [Change.onNode_pullFollowing, Change.onNode_pullEnclosing]
    exact h

theorem yields_shifted (s : Schema) {l : Ledger} {bound : Nat}
    (hwithin : ∀ n ∈ l.nodes, n.Within bound) (subtree : Bounds) {offset : Int}
    (hreach : bound + offset.natAbs ≤ 64 * Table.capacity) :
    (shift subtree offset).Yields s l fun answer l' =>
      answer = .ok () ∧ l' = l.onBounds (Bounds.carried subtree offset) := by
  refine ⟨⟨trivial, Request.inReach_of_within hwithin hreach⟩, ?_⟩
  rintro rows l₁ ⟨-, rfl⟩
  have hnode : (Change.shiftInside subtree offset).onNode s =
      Node.onBounds (Bounds.carried subtree offset) :=
    funext fun n => Change.onNode_shiftInside s n subtree offset
  rw [hnode]
  exact ⟨rfl, rfl⟩

theorem yields_shift {bound : Nat} (hwithin : ∀ n ∈ l.nodes, n.Within bound) {subtree : Bounds}
    {offset : Int} (hreach : bound + offset.natAbs ≤ 64 * Table.capacity)
    {k : Unit → Procedure β}
    (h : (k ()).Yields s (l.onBounds (Bounds.carried subtree offset)) post) :
    (shift subtree offset >>= k).Yields s l post := by
  refine yields_bind ((yields_shifted s hwithin subtree hreach).imp ?_)
  rintro _ _ ⟨rfl, rfl⟩
  exact h

theorem yields_setCounter_insert {sequence : Identifier} {last : Int} {bounds : Bounds}
    {parent : Option Int} {values : List (Field × Value)} {k : Int → Procedure β}
    (hids : s.ids = .sequence sequence) (hl : l.supply.Fits s.ids)
    (hlast : ∀ n, l.supply = .sequence n → last = n.getD 0) (hv : ∀ x ∈ values, x.1 ∈ s.fields)
    (h : ∀ new, (∀ n, l.supply.next? = some n → new = n) →
      (k new).Yields s ⟨⟨new, bounds.left, bounds.right, parent, s.newPayload values⟩ :: l.nodes,
        l.supply.after new⟩ post) :
    (issue (.setCounter sequence (last + 1)) fun _ =>
      issue (.insert (some (last + 1)) bounds parent values) k).Yields s l post := by
  obtain ⟨nodes, supply⟩ := l
  refine ⟨⟨hids, trivial⟩, ?_⟩
  rintro - l₁ rfl
  refine ⟨⟨hv, trivial⟩, ?_⟩
  rintro (new : Int) l₂ ⟨hnew, -, rfl⟩
  obtain rfl := hnew _ rfl
  cases supply with
  | unknown => exact h (last + 1) (by simp [Supply.next?])
  | counted n =>
    rw [hids] at hl
    cases hl
  | sequence n =>
    rw [hlast n rfl]
    apply h (n.getD 0 + 1)
    intro m hm
    exact Option.some.inj hm

theorem yields_insert {bounds : Bounds} {parent : Option Int} {values : List (Field × Value)}
    {k : Int → Procedure β} (hl : l.supply.Fits s.ids) (hv : ∀ x ∈ values, x.1 ∈ s.fields)
    (h : ∀ new, (∀ n, l.supply.next? = some n → new = n) →
      (k new).Yields s ⟨⟨new, bounds.left, bounds.right, parent, s.newPayload values⟩ :: l.nodes,
        l.supply.after new⟩ post) :
    (do
      let id ← drawId s.ids
      let id ← request (.insert id bounds parent values)
      k id).Yields s l post := by
  cases hids : s.ids with
  | autoIncrement =>
    obtain ⟨nodes, supply⟩ := l
    refine ⟨⟨hv, trivial⟩, ?_⟩
    rintro (new : Int) l' ⟨-, hnew, rfl⟩
    cases supply with
    | unknown => exact h new (by simp [Supply.next?])
    | counted last =>
      obtain rfl : new = last + 1 := hnew rfl last rfl
      have hmax : max last (last + 1) = last + 1 := by omega
      simp only [Supply.inserted, hmax]
      apply h (last + 1)
      intro n hn
      exact Option.some.inj hn
    | sequence last => exact absurd hids hl
  | sequence sequence =>
    refine ⟨⟨hids, trivial⟩, ?_⟩
    rintro (counter : Option Int) l₁ ⟨rfl, hcounter⟩
    cases counter with
    | none =>
      refine ⟨⟨trivial, trivial⟩, ?_⟩
      rintro (last : Int) l₂ ⟨rfl, hlast⟩
      refine yields_setCounter_insert hids hl ?_ hv h
      intro n hn
      have hnone := hcounter n hn
      rw [← hnone] at hn ⊢
      exact hlast hn
    | some last =>
      refine yields_setCounter_insert hids hl ?_ hv h
      intro n hn
      rw [← hcounter n hn]
      rfl

end Editing

/-! ### The payload that an edit names -/

theorem Schema.resolve_eq (s : Schema) (payload : Payload) :
    s.resolve payload =
      match s.objection? payload with
      | some e => .error e
      | none => .ok (s.fieldValues payload) := by
  change (Schema.inOrder payload).mapM _ = _
  unfold objection? fieldValues
  induction Schema.inOrder payload with
  | nil => rfl
  | cons x rest ih =>
    obtain ⟨name, v⟩ := x
    rw [List.mapM_cons, ih, List.findSome?_cons, List.filterMap_cons]
    by_cases hn : name ∈ structuralFields
    · simp only [hn, if_true]
      rfl
    · simp only [hn, if_false]
      cases hf : s.field? name with
      | none => rfl
      | some f =>
        simp only [Option.isNone_some, Bool.false_eq_true, if_false, Option.map_some]
        cases rest.findSome? _ <;> rfl

theorem Schema.fieldValues_mem {s : Schema} {payload : Payload} {x : Field × Value}
    (h : x ∈ s.fieldValues payload) : x.1 ∈ s.fields := by
  obtain ⟨⟨name, v⟩, _, hx⟩ := List.mem_filterMap.1 h
  obtain ⟨f, hf, rfl⟩ := Option.map_eq_some_iff.1 hx
  exact List.mem_of_find?_eq_some hf

/-! ### The edits -/

/-- An answer and a ledger that are what an ideal result says. After an error the ledger is the
one before, otherwise its supply is as given. -/
def Agrees {α : Type} (l : Ledger) (supply : Supply) (ideal : Except TreeError (α × Forest Item))
    (answer : Except TreeError α) (l' : Ledger) : Prop :=
  match ideal with
  | .error e => answer = .error e ∧ l' = l
  | .ok (a, g) => answer = .ok a ∧ l'.nodes.Perm g.nodes ∧ l'.supply = supply

/-- An answer and a ledger that are what an ideal result says for the id of a new node, which is
the next of the supply if that is known. -/
def AgreesAtNew {α : Type} (l : Ledger) (supply : Int → Except TreeError α → Supply)
    (ideal : Int → Except TreeError (α × Forest Item)) (answer : Except TreeError α)
    (l' : Ledger) : Prop :=
  ∃ new, (∀ n, l.supply.next? = some n → new = n) ∧
    Agrees l (supply new answer) (ideal new) answer l'

theorem Agrees.atNew {α : Type} {l l' : Ledger} {supply : Int → Except TreeError α → Supply}
    {ideal : Int → Except TreeError (α × Forest Item)} {answer : Except TreeError α}
    (h : ∀ new, Agrees l (supply new answer) (ideal new) answer l') :
    AgreesAtNew l supply ideal answer l' := by
  refine ⟨l.supply.next?.getD 0, ?_, h _⟩
  intro n hn
  rw [hn]
  rfl

theorem AgreesAtNew.of_error {α : Type} {l : Ledger} {supply : Int → Except TreeError α → Supply}
    {ideal : Int → Except TreeError (α × Forest Item)} {e : TreeError}
    (h : ∀ new, ideal new = .error e) : AgreesAtNew l supply ideal (.error e) l := by
  apply Agrees.atNew
  intro new
  rw [h]
  exact ⟨rfl, rfl⟩

namespace Editing

open Procedure

variable {α β : Type} {s : Schema} {l : Ledger} {f : Forest Item}

theorem yields_resolve {payload : Payload} {k : List (Field × Value) → Procedure β}
    {post : Except TreeError β → Ledger → Prop}
    (hbad : ∀ e, s.objection? payload = some e → post (.error e) l)
    (hgood : s.objection? payload = none → (k (s.fieldValues payload)).Yields s l post) :
    ((liftM (s.resolve payload) : Procedure (List (Field × Value))) >>= k).Yields s l post := by
  apply yields_bind
  change andThen s k post (s.resolve payload) l
  rw [Schema.resolve_eq]
  cases ho : s.objection? payload with
  | some e => exact hbad e ho
  | none => exact hgood ho

theorem has_eq_false_of_perm {id : Int} (hl : l.nodes.Perm f.nodes)
    (h : ∀ n ∈ l.nodes, n.id ≠ id) : f.has id = false := by
  rw [Forest.has_eq_false_iff]
  exact fun n hn => h n (hl.mem_iff.2 hn)

theorem within_of_perm (hl : l.nodes.Perm f.nodes) : ∀ n ∈ l.nodes, n.Within (2 * f.size) := by
  intro n hn
  have hn := hl.mem_iff.1 hn
  have hleft := Forest.bounds_of_mem_nodes hn
  have hright := Forest.right_le_of_mem_nodes hn
  simp only [Node.Within]
  omega

theorem span_le {n : Node} (hn : n ∈ f.nodes) : n.bounds.span.natAbs ≤ 2 * f.size := by
  have hleft := Forest.bounds_of_mem_nodes hn
  have hright := Forest.right_le_of_mem_nodes hn
  simp only [Bounds.span, Node.bounds]
  omega

theorem Tie.pivot_le (tie : Tie) {n : Node} (hn : n ∈ f.nodes) :
    (tie.anchor n.bounds).pivot.natAbs ≤ 2 * f.size := by
  have hwithin := within_of_perm (l := ⟨f.nodes, .unknown⟩) (.refl _) n hn
  cases tie with
  | firstChild => exact hwithin.1
  | nextSibling => exact hwithin.2

theorem yields_remove (hl : l.nodes.Perm f.nodes) (hf : f.ids.Nodup)
    (hroom : f.size ≤ Table.capacity) (id : Int) :
    (remove id).Yields s l (Agrees l l.supply (match f.treeAt? (Item.is id) with
      | some subtree => .ok (subtree.size, f.erase (Item.is id))
      | none => .error (.notFound id))) := by
  apply yields_element
  · intro n hn hid
    subst hid
    obtain ⟨children, site, -, ht, hr, hg⟩ := Forest.exists_cut hf (hl.mem_iff.1 hn)
    have hgap : n.bounds = Forest.Graft.gap (.tree ⟨n.id, n.payload⟩ children .nil) n.left := by
      simp only [Node.bounds, Forest.Graft.gap, hr]
    rw [ht]
    refine ⟨⟨trivial, trivial⟩, ?_⟩
    rintro (rows : Nat) l₁ ⟨hrows, rfl⟩
    have hspan := span_le (hl.mem_iff.1 hn)
    have hwithin : ∀ m ∈ l.nodes.filter fun n' => !Request.covers n.bounds n',
        m.Within (2 * f.size) :=
      fun m hm => within_of_perm hl m (List.mem_of_mem_filter hm)
    refine yields_collapse hwithin (by omega) ?_
    refine ⟨congrArg Except.ok ?_, ?_, rfl⟩
    · rw [hrows, hgap, hl.countP_eq, hg.countP_covers]
    · rw [hgap]
      exact ((hl.filter _).map _).trans (hg.perm_nodes_closed (by simp [Forest.size]))
  · intro hmissing
    rw [Forest.treeAt?_isNone (has_eq_false_of_perm hl hmissing)]
    exact ⟨rfl, rfl⟩

theorem yields_update (hl : l.nodes.Perm f.nodes) (id : Int) (payload : Payload) :
    (update s id payload).Yields s l (Agrees l l.supply (
      if payload.isEmpty then .error (.invalidInput .noFields)
      else
        match s.objection? payload with
        | some e => .error e
        | none =>
          if f.has id then
            .ok ((), f.map fun a =>
              if a.is id then ⟨a.id, s.overwrite (s.fieldValues payload) a.payload⟩ else a)
          else .error (.notFound id))) := by
  unfold update
  by_cases he : payload.isEmpty = true
  · rw [if_pos he, if_pos he]
    exact ⟨rfl, rfl⟩
  rw [if_neg he, if_neg he]
  apply yields_resolve
  · intro e ho
    rw [ho]
    exact ⟨rfl, rfl⟩
  intro ho
  rw [ho]
  refine ⟨⟨fun x hx => Schema.fieldValues_mem hx, by rintro ⟨⟩⟩, ?_⟩
  rintro (rows : Nat) l₁ ⟨hrows, rfl⟩
  change (if rows = 0 then throw (TreeError.notFound id)
    else Procedure.tell (.updated id payload.length) : Procedure Unit).Yields s _ _
  by_cases hz : rows = 0
  · have hnone : ∀ n ∈ l.nodes, n.id ≠ id := by
      rw [hz] at hrows
      intro n hn
      simpa [Change.picks] using List.countP_eq_zero.1 hrows.symm n hn
    have hhas := has_eq_false_of_perm hl hnone
    have hsame : l.nodes.map ((Change.payload id (s.fieldValues payload)).onNode s) = l.nodes := by
      refine (List.map_congr_left (g := fun n => n) ?_).trans (List.map_id' _)
      intro n hn
      simp [Change.onNode, Change.picks, hnone n hn]
    rw [if_pos hz, if_neg (by simp [hhas]), hsame]
    exact ⟨rfl, rfl⟩
  · have hhas : f.has id = true := by
      by_contra hhas
      refine hz (hrows.trans (List.countP_eq_zero.2 ?_))
      intro n hn
      have hid := Forest.has_eq_false_iff.1 (by simpa using hhas) n (hl.mem_iff.1 hn)
      simpa [Change.picks] using hid
    rw [if_neg hz, if_pos hhas]
    refine ⟨rfl, ?_, rfl⟩
    rw [Forest.nodes_map (by intro a; split <;> rfl)]
    refine (hl.map _).trans (List.Perm.of_eq ?_)
    apply List.map_congr_left
    intro n _
    by_cases hid : n.id = id <;>
      simp [Change.onNode, Change.picks, Change.revised, Item.is, hid]

theorem yields_leaf {values : List (Field × Value)} {pivot : Int} {parent : Option Int}
    {g : Int → Forest Item} (hl : l.nodes.Perm f.nodes) (hroom : f.size ≤ Table.capacity)
    (hs : l.supply.Fits s.ids)
    (hv : ∀ x ∈ values, x.1 ∈ s.fields)
    (hg : ∀ new, ∃ site : Option Item, site.map (·.id) = parent ∧
      Forest.Graft (.tree ⟨new, s.newPayload values⟩ .nil .nil) none 1 site (pivot + 1) f (g new))
    (hroot : parent = none → f = .nil) :
    (do
      makeLeafRoom parent pivot
      let id ← drawId s.ids
      let id ← request (.insert id (Bounds.leafAfter pivot) parent values)
      tell (.added id (Bounds.leafAfter pivot) parent)
      return id).Yields s l
        (AgreesAtNew l (fun new _ => l.supply.after new) fun new => .ok (new, g new)) := by
  have htail : (do
      let id ← drawId s.ids
      let id ← request (.insert id (Bounds.leafAfter pivot) parent values)
      tell (.added id (Bounds.leafAfter pivot) parent)
      return id).Yields s (l.onBounds (Bounds.pushed pivot 2))
        (AgreesAtNew l (fun new _ => l.supply.after new) fun new => .ok (new, g new)) := by
    refine @yields_insert _ s (l.onBounds _) _ _ _ _ (fun id => do
      Procedure.tell (.added id (Bounds.leafAfter pivot) parent)
      return id) hs hv ?_
    intro new hnew
    refine ⟨new, hnew, rfl, ?_, rfl⟩
    obtain ⟨site, hsite, hgraft⟩ := hg new
    have hperm := Forest.perm_nodes_leaf hgraft
    rw [hsite] at hperm
    exact ((hl.map _).cons _).trans hperm.symm
  cases parent with
  | some id =>
    have hcapacity := Table.capacity_pos
    exact yields_makeRoom (within_of_perm hl) (by omega) htail
  | none =>
    have hempty : l.onBounds (Bounds.pushed pivot 2) = l := by
      obtain rfl := hroot rfl
      have hnil : l.nodes = [] := hl.eq_nil
      rw [Ledger.onBounds, hnil, List.map_nil, ← hnil]
    rw [hempty] at htail
    exact htail

/-- Looking up where a leaf goes finds a graft for every leaf, or what is wrong with them all. -/
theorem yields_site {placement : Placement} {k : Option Int × Int → Procedure β}
    {post : Except TreeError β → Ledger → Prop} (hl : l.nodes.Perm f.nodes) (hf : f.ids.Nodup)
    (hbad : ∀ e, (∀ leaf, f.plant leaf placement = .error e) → post (.error e) l)
    (hgood : ∀ (parent : Option Int) (pivot : Int) (g : Item → Forest Item),
      (parent = none → f = .nil) → (∀ leaf, f.plant leaf placement = .ok (g leaf)) →
      (∀ leaf, ∃ site : Option Item, site.map (·.id) = parent ∧
        Forest.Graft (.tree leaf .nil .nil) none 1 site (pivot + 1) f (g leaf)) →
      (k (parent, pivot)).Yields s l post) :
    (site placement >>= k).Yields s l post := by
  cases placement with
  | root =>
    refine ⟨⟨trivial, trivial⟩, ?_⟩
    rintro (size : Nat) l₁ ⟨rfl, hsize⟩
    rw [hl.length_eq, Forest.length_nodes] at hsize
    cases f with
    | nil =>
      obtain rfl : size = 0 := hsize
      exact hgood none 0 (fun leaf => .tree leaf .nil .nil) (fun _ => rfl) (fun _ => rfl)
        fun _ => ⟨none, rfl, .here none 1 .nil⟩
    | tree a children rest =>
      have hz : size ≠ 0 := by
        simp only [Forest.size] at hsize
        omega
      apply yields_bind
      change (if size = 0 then pure (none, 0) else throw (.invalidInput .rootExists) :
        Procedure (Option Int × Int)).Yields s l₁ _
      rw [if_neg hz]
      exact hbad _ fun _ => rfl
  | firstChildOf id =>
    refine yields_bind (yields_element ?_ ?_)
    · intro n hn hid
      subst hid
      have hmem := hl.mem_iff.1 hn
      refine hgood _ _ _ (by simp) ?_ (Forest.graft_insertBelow_node hf hmem <| .tree · .nil .nil)
      intro leaf
      rw [Forest.plant, if_pos (Forest.has_of_mem_nodes hmem)]
    · intro hmissing
      apply hbad
      intro leaf
      rw [Forest.plant, if_neg (by simp [has_eq_false_of_perm hl hmissing])]
  | after id =>
    refine yields_bind (yields_element ?_ ?_)
    · intro n hn hid
      subst hid
      have hmem := hl.mem_iff.1 hn
      have hhas := Forest.has_of_mem_nodes hmem
      have houter := Forest.isOutermost_of_mem_nodes hf hmem
      cases hp : n.parent with
      | none =>
        apply hbad
        intro leaf
        rw [Forest.plant, if_pos hhas, if_pos (by simp [houter, hp])]
      | some parent =>
        refine hgood _ _ _ (by simp) ?_
          (hp ▸ (Forest.graft_insertAfter_node hf hmem <| .tree · .nil .nil))
        intro leaf
        rw [Forest.plant, if_pos hhas, if_neg (by simp [houter, hp])]
    · intro hmissing
      apply hbad
      intro leaf
      rw [Forest.plant, if_neg (by simp [has_eq_false_of_perm hl hmissing])]

theorem yields_add (hl : l.nodes.Perm f.nodes) (hf : f.ids.Nodup)
    (hroom : f.size ≤ Table.capacity) (hs : l.supply.Fits s.ids) (payload : Payload)
    (placement : Placement) :
    (add s payload placement).Yields s l
      (AgreesAtNew l (fun new _ => l.supply.after new) fun new =>
        match s.objection? payload with
        | some e => .error e
        | none => (f.plant ⟨new, s.newPayload (s.fieldValues payload)⟩ placement).map fun g =>
            (new, g)) := by
  apply yields_resolve
  · intro e ho
    exact .of_error fun new => by rw [ho]
  intro ho
  have hv : ∀ x ∈ s.fieldValues payload, x.1 ∈ s.fields := fun x hx => Schema.fieldValues_mem hx
  simp only [ho]
  apply yields_site hl hf
  · intro e hplant
    exact .of_error fun new => by rw [hplant, Except.map]
  · intro parent pivot g hroot hplant hg
    simp only [hplant, Except.map]
    exact yields_leaf hl hroom hs hv (fun new => hg _) hroot

def Tie.insert (tie : Tie) (target : Int) (subtree f : Forest Item) : Forest Item :=
  match tie with
  | .firstChild => f.insertBelow (Item.is target) subtree
  | .nextSibling => f.insertAfter (Item.is target) subtree

def Tie.placement : Tie → Int → Placement
  | .firstChild => .firstChildOf
  | .nextSibling => .after

theorem Tie.transplant_eq (tie : Tie) {id target : Int} (hne : target ≠ id) (f : Forest Item) :
    f.transplant id (tie.placement target) =
      match f.cutting id target with
      | .error e => .error e
      | .ok subtree =>
        if tie = .nextSibling ∧ f.isOutermost target then .error (.invalidMove .besideRoot)
        else .ok (.moved, tie.insert target subtree (f.erase (Item.is id))) := by
  cases tie <;> cases hc : f.cutting id target <;>
    simp [placement, Forest.transplant, hne, hc, Except.map, insert]

theorem Tie.transplant_self (tie : Tie) (id : Int) (f : Forest Item) :
    f.transplant id (tie.placement id) = .ok (.alreadyInPlace, f) := by
  cases tie <;> simp [placement, Forest.transplant]

theorem Tie.exists_graft {tie : Tie} {target : Node} {parent : Int} (hf : f.ids.Nodup)
    (ht : target ∈ f.nodes) (hp : tie.parent? target = some parent) (subtree : Forest Item) :
    ∃ site : Option Item, site.map (·.id) = some parent ∧
      Forest.Graft subtree none 1 site ((tie.anchor target.bounds).pivot + 1) f
        (tie.insert target.id subtree f) := by
  cases tie with
  | firstChild =>
    obtain rfl := Option.some.inj hp
    exact Forest.graft_insertBelow_node hf ht subtree
  | nextSibling =>
    obtain ⟨site, hsite, hg⟩ := Forest.graft_insertAfter_node hf ht subtree
    exact ⟨site, hsite.trans hp, hg⟩

theorem Tie.pivot_pushed (tie : Tie) (b : Bounds) (pivot width : Int) :
    (tie.anchor (b.pushed pivot width)).pivot =
      raised pivot width (tie.anchor b).pivot := by
  cases tie <;> rfl

theorem Tie.parent?_onBounds (tie : Tie) (e : Bounds → Bounds) (n : Node) :
    tie.parent? (n.onBounds e) = tie.parent? n := by
  cases tie <;> rfl

/-- A target beside the node that moves is below it, which the ranges show, or a node of the
rest. -/
theorem target_inside_or_outside {node target : Node} {children f₀ : Forest Item}
    {site : Option Item} (hf : f.ids.Nodup)
    (hg : Forest.Graft (.tree ⟨node.id, node.payload⟩ children .nil) none 1 site node.left f₀ f)
    (hr : node.right = node.left +
      2 * (Forest.tree ⟨node.id, node.payload⟩ children .nil).size - 1)
    (ht : target ∈ f.nodes) (hid : target.id ≠ node.id) :
    (node.bounds.contains target.bounds = true ∧
      (Forest.tree ⟨node.id, node.payload⟩ children .nil).has target.id = true) ∨
    (node.bounds.contains target.bounds = false ∧
      (Forest.tree ⟨node.id, node.payload⟩ children .nil).has target.id = false ∧
        ∃ t ∈ f₀.nodes, target = t.onBounds (Bounds.pushed (node.left - 1)
          (2 * (Forest.tree ⟨node.id, node.payload⟩ children .nil).size))) := by
  rcases List.mem_append.1 (hg.perm_nodes.mem_iff.1 ht) with hmem | hmem
  · refine .inl ?_
    obtain ⟨v, hv, rfl⟩ := List.mem_map.1 hmem
    rcases Forest.mem_walk_tree.1 hv with rfl | hv | hv
    · exact absurd rfl hid
    · have hb := Forest.bounds_of_mem_walk hv
      have hlabel := Forest.label_mem_labels hv
      constructor
      · rw [Bounds.contains_iff]
        simp only [Forest.walkEnd, Forest.size, Node.bounds, Visit.node] at hb hr ⊢
        omega
      · rw [Forest.has, List.any_eq_true]
        exact ⟨v.label, List.mem_cons_of_mem _ (List.mem_append_left _ hlabel), Item.is_iff.2 rfl⟩
    · cases hv
  · refine .inr ?_
    obtain ⟨t, htmem, rfl⟩ := List.mem_map.1 hmem
    have hb := (Forest.bounds_of_mem_nodes htmem).2
    refine ⟨?_, ?_, t, htmem, rfl⟩
    · rw [Bool.eq_false_iff, ne_eq, Bounds.contains_iff]
      simp only [Node.onBounds, Node.bounds, Bounds.pushed, hr]
      split_ifs <;> omega
    · rw [Bool.eq_false_iff, ne_eq, Forest.has_iff]
      intro hhas
      have hapart := (List.nodup_append.1 (hg.perm_ids.nodup_iff.1 hf)).2.2
      refine hapart _ hhas t.id ?_ rfl
      rw [← Forest.map_id_nodes]
      exact List.mem_map_of_mem htmem

/-- A subtree that is carried past a target outside of it, as the statements do it, ends where the
tie puts it. -/
theorem Tie.perm_nodes_relocated {node target : Node} {tie : Tie} {parent : Int}
    {subtree : Forest Item} (hf : f.ids.Nodup) (hn : node ∈ f.nodes) (ht : target ∈ f.nodes)
    (hne : target.id ≠ node.id) (htree : f.treeAt? (Item.is node.id) = some subtree)
    (hout : subtree.has target.id = false) (hp : tie.parent? target = some parent) :
    (f.nodes.map (Node.relocated node.id parent node.bounds
      (tie.anchor target.bounds).pivot)).Perm
        (tie.insert target.id subtree (f.erase (Item.is node.id))).nodes := by
  obtain ⟨children, site, -, htree', hr, hg⟩ := Forest.exists_cut hf hn
  obtain rfl := Option.some.inj (htree.symm.trans htree')
  obtain ⟨-, hhas⟩ | ⟨-, -, t, htmem, rfl⟩ := target_inside_or_outside hf hg hr ht hne
  · rw [hout] at hhas
    cases hhas
  · rw [Tie.parent?_onBounds] at hp
    have hf₀ := (List.nodup_append.1 (hg.perm_ids.nodup_iff.1 hf)).2.1
    obtain ⟨site', hsite', hg'⟩ := Tie.exists_graft hf₀ htmem hp
      (.tree ⟨node.id, node.payload⟩ children .nil)
    have hgap : node.bounds =
        Forest.Graft.gap (.tree ⟨node.id, node.payload⟩ children .nil) node.left := by
      simp only [Node.bounds, Forest.Graft.gap, hr]
    have hmoved := hg.perm_nodes_relocated hf hg' hsite'
    rw [← hgap, ← Tie.pivot_pushed] at hmoved
    exact hmoved

/-- Making room for a subtree at most doubles the markers. -/
theorem within_reopened (hl : l.nodes.Perm f.nodes) {node : Node} (hn : node ∈ f.nodes)
    (pivot parent : Int) :
    ∀ n ∈ (l.nodes.map (Node.onBounds (Bounds.pushed pivot node.bounds.span))).map
      (Node.reparented node.id parent), n.Within (4 * f.size) := by
  rw [List.map_map]
  refine List.forall_mem_map.2 fun n hm => ?_
  have hwithin := (within_of_perm hl n hm).pushed pivot node.bounds.span
  have hspan := span_le hn
  simp only [Node.Within] at hwithin
  constructor
  · exact hwithin.1.trans (by omega)
  · exact hwithin.2.trans (by omega)

theorem reach_reopened {node target current : Node} {tie : Tie} (hn : node ∈ f.nodes)
    (ht : target ∈ f.nodes) (hc : current.bounds =
      node.bounds.pushed (tie.anchor target.bounds).pivot node.bounds.span) :
    (relocationOffset (tie.anchor target.bounds).pivot current.bounds).natAbs ≤ 6 * f.size + 1 ∧
      current.bounds.span.natAbs ≤ 8 * f.size + 1 := by
  have hpivot := tie.pivot_le ht
  have hspan := span_le hn
  have hwithin := (within_of_perm (l := ⟨f.nodes, .unknown⟩) (.refl _) node hn).pushed
    (tie.anchor target.bounds).pivot node.bounds.span
  simp only [Node.Within, Node.onBounds] at hwithin
  rw [hc]
  simp only [relocationOffset, Bounds.span] at hspan hwithin ⊢
  omega

theorem yields_reopen {node target : Node} {tie : Tie} {parent : Int}
    {post : Except TreeError (Node × Node) → Ledger → Prop}
    (hl : l.nodes.Perm f.nodes) (hf : f.ids.Nodup) (hroom : f.size ≤ Table.capacity)
    (hn : node ∈ f.nodes) (ht : target ∈ f.nodes)
    (h : let pushed := Bounds.pushed (tie.anchor target.bounds).pivot node.bounds.span
      ∀ target' current : Node, target'.bounds = pushed target.bounds → current.id = node.id →
        current.bounds = pushed node.bounds →
        post (.ok (target', current)) { l with nodes :=
          (l.nodes.map (Node.onBounds pushed)).map (Node.reparented node.id parent) }) :
    (reopen node tie target parent).Yields s l post := by
  have hreparent : (Change.reparent node.id parent).onNode s = Node.reparented node.id parent :=
    funext fun n => Change.onNode_reparent s n node.id parent
  have hfound : ∀ {n m : Node}, m ∈ f.nodes →
      n ∈ (l.nodes.map (Node.onBounds (Bounds.pushed (tie.anchor target.bounds).pivot
        node.bounds.span))).map (Node.reparented node.id parent) → n.id = m.id →
      n.bounds = m.bounds.pushed (tie.anchor target.bounds).pivot node.bounds.span := by
    intro n m hm hmem hid
    rw [List.map_map] at hmem
    obtain ⟨n', hn', rfl⟩ := List.mem_map.1 hmem
    rw [Forest.eq_of_mem_nodes hf (hl.mem_iff.1 hn') hm hid]
    rfl
  have hthere : ∀ {m : Node}, m ∈ f.nodes →
      ¬∀ n ∈ (l.nodes.map (Node.onBounds (Bounds.pushed (tie.anchor target.bounds).pivot
        node.bounds.span))).map (Node.reparented node.id parent), n.id ≠ m.id := by
    intro m hm hmissing
    apply hmissing _ (List.mem_map_of_mem (List.mem_map_of_mem (hl.mem_iff.2 hm)))
    rfl
  unfold reopen
  have hspan := span_le hn
  refine yields_makeRoom (within_of_perm hl) (by omega) ⟨⟨trivial, by rintro ⟨⟩⟩, ?_⟩
  rintro rows l₁ ⟨-, rfl⟩
  rw [hreparent]
  refine yields_element ?_ fun hmissing => absurd hmissing (hthere ht)
  intro target' htarget' htid
  refine yields_element ?_ fun hmissing => absurd hmissing (hthere hn)
  intro current hcurrent hcid
  exact h target' current (hfound ht htarget' htid) hcid (hfound hn hcurrent hcid)

theorem yields_relocate {node target : Node} {tie : Tie} {parent : Int}
    {post : Except TreeError β → Ledger → Prop} {k : Unit → Procedure β}
    (hl : l.nodes.Perm f.nodes) (hf : f.ids.Nodup) (hroom : f.size ≤ Table.capacity)
    (hn : node ∈ f.nodes) (ht : target ∈ f.nodes)
    (h : (k ()).Yields s { l with nodes := l.nodes.map (Node.relocated node.id parent node.bounds
      (tie.anchor target.bounds).pivot) } post) :
    (relocate node tie target parent >>= k).Yields s l post := by
  rw [relocate_eq, bind_assoc]
  refine yields_bind (yields_reopen hl hf hroom hn ht ?_)
  intro pushed target' current htb _ hcb
  have hpivot : (tie.anchor target'.bounds).pivot = (tie.anchor target.bounds).pivot := by
    rw [htb, Tie.pivot_pushed, raised, if_neg (Int.lt_irrefl _)]
  have hwithin := within_reopened hl hn (tie.anchor target.bounds).pivot parent
  obtain ⟨hoffset, hspan⟩ := reach_reopened hn ht hcb
  rw [← hpivot] at hoffset
  have hcapacity := Table.capacity_pos
  refine yields_bind (yields_shift hwithin (by omega) (yields_collapse
    (List.forall_mem_map.2 fun n hm => (hwithin n hm).carried _ _) (by omega) ?_))
  rw [hpivot, hcb]
  refine (congrArg (fun l' => (k ()).Yields s l' post) ?_).mpr h
  simp only [Ledger.onBounds, List.map_map]
  rfl

theorem yields_moveTo (tie : Tie) (id targetId : Int) (hl : l.nodes.Perm f.nodes)
    (hf : f.ids.Nodup) (hroom : f.size ≤ Table.capacity) :
    (moveTo id tie targetId).Yields s l
      (Agrees l l.supply (f.transplant id (tie.placement targetId))) := by
  unfold moveTo
  by_cases hne : targetId = id
  · rw [if_pos hne, hne, tie.transplant_self]
    exact ⟨rfl, hl, rfl⟩
  rw [if_neg hne, tie.transplant_eq hne]
  apply yields_element
  · intro target htarget htid
    subst htid
    have ht := hl.mem_iff.1 htarget
    apply yields_element
    · intro node hnode hid
      subst hid
      have hn := hl.mem_iff.1 hnode
      obtain ⟨children, site, hsite, htree, hr, hg⟩ := Forest.exists_cut hf hn
      unfold Forest.cutting
      rw [if_pos (Forest.has_of_mem_nodes ht), htree]
      rcases target_inside_or_outside hf hg hr ht hne with ⟨hin, hhas⟩ | ⟨hout, hhas, -⟩
      · rw [if_pos hin]
        simp only [hhas, if_true]
        exact ⟨rfl, rfl⟩
      · rw [if_neg (by simp [hout])]
        simp only [hhas, Bool.false_eq_true, if_false]
        have houter := Forest.isOutermost_of_mem_nodes hf ht
        cases hp : tie.parent? target with
        | none =>
          have htie : tie = .nextSibling ∧ f.isOutermost target.id = true := by
            cases tie with
            | firstChild => cases hp
            | nextSibling => exact ⟨rfl, by rw [houter]; simpa [Tie.parent?] using hp⟩
          rw [if_pos htie]
          exact ⟨rfl, rfl⟩
        | some parent =>
          have htie : ¬(tie = .nextSibling ∧ f.isOutermost target.id = true) := by
            rintro ⟨rfl, ho⟩
            have hsome : target.parent = some parent := hp
            simp [houter, hsome] at ho
          rw [if_neg htie]
          have hmoved := Tie.perm_nodes_relocated hf hn ht hne htree hhas hp
          exact yields_relocate hl hf hroom hn ht ⟨rfl, (hl.map _).trans hmoved, rfl⟩
    · intro hmissing
      unfold Forest.cutting
      rw [if_pos (Forest.has_of_mem_nodes ht),
        Forest.treeAt?_isNone (has_eq_false_of_perm hl hmissing)]
      exact ⟨rfl, rfl⟩
  · intro hmissing
    unfold Forest.cutting
    rw [if_neg (by simp [has_eq_false_of_perm hl hmissing])]
    exact ⟨rfl, rfl⟩

theorem yields_move (hl : l.nodes.Perm f.nodes) (hf : f.ids.Nodup)
    (hroom : f.size ≤ Table.capacity) (id : Int) (placement : Placement) :
    (move id placement).Yields s l (Agrees l l.supply (f.transplant id placement)) := by
  cases placement with
  | root => exact ⟨rfl, rfl⟩
  | firstChildOf target => exact yields_moveTo .firstChild id target hl hf hroom
  | after target => exact yields_moveTo .nextSibling id target hl hf hroom

end Editing

theorem Agrees.map {α β : Type} {l l' : Ledger} {supply supply' : Supply}
    {ideal : Except TreeError (α × Forest Item)} {answer : Except TreeError α} {c : α → β}
    (h : Agrees l supply ideal answer l')
    (hs : ∀ a, answer = .ok a → supply' = supply) :
    Agrees l supply' (ideal.map fun x => (c x.1, x.2)) (answer.map c) l' := by
  cases ideal with
  | error e =>
    obtain ⟨rfl, rfl⟩ := h
    exact ⟨rfl, rfl⟩
  | ok x =>
    obtain ⟨rfl, hperm, hsupply⟩ := h
    exact ⟨rfl, hperm, hsupply.trans (hs _ rfl).symm⟩

/-- Every edit does to a ledger what it does to the forest whose nodes the ledger holds. -/
theorem Edit.yields_procedure {s : Schema} {l : Ledger} {f : Forest Item}
    (hl : l.nodes.Perm f.nodes) (hf : f.ids.Nodup) (hroom : f.size ≤ Table.capacity)
    (hs : l.supply.Fits s.ids) (e : Edit) :
    (e.procedure s).Yields s l fun answer l' =>
      ∃ new, (∀ n, l.supply.next? = some n → new = n) ∧
        Agrees l (if answer = .ok (.created new) then l.supply.after new else l.supply)
          (e.onForest s new f) answer l' := by
  -- the edits that draw no id
  have hplain : ∀ {α : Type} {ideal : Except TreeError (α × Forest Item)} {p : Procedure α}
      (c : α → Answer), (∀ a id, c a ≠ .created id) →
      (∀ new, e.onForest s new f = ideal.map fun x => (c x.1, x.2)) →
      p.Yields s l (Agrees l l.supply ideal) →
      (c <$> p).Yields s l fun answer l' => ∃ new, (∀ n, l.supply.next? = some n → new = n) ∧
        Agrees l (if answer = .ok (.created new) then l.supply.after new else l.supply)
          (e.onForest s new f) answer l' := by
    intro α ideal p c hc hideal hp
    refine Procedure.yields_map (hp.imp ?_)
    intro answer l' h
    refine ⟨l.supply.next?.getD 0, fun n hn => by rw [hn]; rfl, ?_⟩
    rw [hideal]
    apply h.map
    rintro a rfl
    exact if_neg (by simpa [Except.map] using hc a _)
  cases e with
  | add payload placement =>
    refine Procedure.yields_map ((Editing.yields_add hl hf hroom hs payload placement).imp ?_)
    rintro answer l' ⟨new, hnew, h⟩
    refine ⟨new, hnew, ?_⟩
    simp only [Edit.onForest]
    cases ho : s.objection? payload with
    | some e =>
      simp only [ho] at h
      exact h.map (c := Answer.created) (by rintro a rfl; cases h.1)
    | none =>
      simp only [ho] at h
      cases hp : f.plant ⟨new, s.newPayload (s.fieldValues payload)⟩ placement with
      | error e =>
        rw [hp] at h
        exact h.map (c := Answer.created) (by rintro a rfl; cases h.1)
      | ok g =>
        rw [hp] at h
        apply h.map (c := Answer.created)
        rintro a rfl
        cases h.1
        exact if_pos rfl
  | remove id =>
    refine hplain .deleted (by simp) ?_ (Editing.yields_remove hl hf hroom id)
    intro new
    cases ht : f.treeAt? (Item.is id) <;> simp [Edit.onForest, ht, Except.map]
  | move id placement =>
    exact hplain .placed (by simp) (fun new => rfl) (Editing.yields_move hl hf hroom id placement)
  | update id payload =>
    refine hplain (fun _ => .updated) (by simp) ?_ (Editing.yields_update hl id payload)
    intro new
    by_cases he : payload.isEmpty = true
    · simp [Edit.onForest, he, Except.map]
    · cases ho : s.objection? payload with
      | some e => simp [Edit.onForest, he, ho, Except.map]
      | none => by_cases hh : f.has id = true <;> simp [Edit.onForest, he, ho, hh, Except.map]
  | copy id placement => exact ⟨l.supply.next?.getD 0, fun n hn => by rw [hn]; rfl, rfl, rfl⟩

end NestedSet
