import Mathlib
import NestedSet.Proofs.OwnErrors

/-!
# Ids that a tree does not have

An id may belong to no row of a table or to a row of another partition; for a
tree that is the same. No reader shows a node of that id, and an edit that
comes to look it up fails because it is not found. Checks that need no look-up
come first.
-/

set_option autoImplicit false

namespace NestedSet

/-! ### What readers show -/

def Gives {ε α : Type} (x : Except ε α) (P : α → Prop) : Prop := ∀ a, x = .ok a → P a

theorem gives_bind {ε α β : Type} {x : Except ε α} {f : α → Except ε β} {P : α → Prop}
    {Q : β → Prop} (hx : Gives x P) (hf : ∀ a, P a → Gives (f a) Q) : Gives (x >>= f) Q := by
  intro b hb
  obtain ⟨a, ha, hb⟩ := exists_of_bind_ok hb
  exact hf a (hx a ha) b hb

theorem gives_pure {ε α : Type} {P : α → Prop} {a : α} (h : P a) :
    Gives (pure a : Except ε α) P := by
  rintro b ⟨⟩
  exact h

theorem gives_error {ε α : Type} {P : α → Prop} (e : ε) : Gives (.error e : Except ε α) P := by
  rintro b ⟨⟩

theorem gives_true {ε α : Type} (x : Except ε α) : Gives x fun _ => True := fun _ _ => trivial

namespace Reading

variable {records : List Record} {P : Node → Prop}

theorem gives_ask {α : Type} {Q : α → Prop} {answer : Except Refusal α} (h : Gives answer Q) :
    Gives (ask answer) Q := by
  cases answer with
  | error refusal => exact gives_error _
  | ok a =>
    rintro b ⟨⟩
    exact h a rfl

theorem gives_first (h : ∀ r ∈ records, Gives r.node P) (meets : Record → Bool) :
    Gives (first records meets) fun found => ∀ n, found = some n → P n := by
  unfold first
  cases hfind : records.find? meets with
  | none => exact gives_pure (by simp)
  | some r =>
    intro found hfound
    change some <$> r.node = .ok found at hfound
    cases hnode : r.node with
    | error refusal => simp [hnode] at hfound
    | ok m =>
      rw [hnode] at hfound
      cases hfound
      rintro n ⟨⟩
      exact h r (List.mem_of_find?_eq_some hfind) m hnode

theorem gives_all (h : ∀ r ∈ records, Gives r.node P) :
    Gives (all records) fun nodes => ∀ n ∈ nodes, P n := by
  unfold all
  induction records with
  | nil => exact gives_pure (by simp)
  | cons r rest ih =>
    rw [List.forall_mem_cons] at h
    rw [List.mapM_cons]
    refine gives_bind h.1 fun n hn => gives_bind (ih h.2) fun nodes hnodes => gives_pure ?_
    exact List.forall_mem_cons.2 ⟨hn, hnodes⟩

theorem gives_nodes (h : ∀ r ∈ records, Gives r.node P) :
    Gives (nodes records) fun nodes => ∀ n ∈ nodes, P n := by
  refine gives_ask (gives_all ?_)
  intro r hr
  exact h r (List.mem_mergeSort.1 hr)

theorem gives_generations (h : ∀ r ∈ records, Gives r.node P) (order : OrderKey)
    (collation : Collation) (levels : Nat) (ids : List Int) :
    Gives (generations order collation records levels ids) fun answers =>
      ∀ nodes ∈ answers, ∀ n ∈ nodes, P n := by
  induction levels generalizing ids with
  | zero => exact gives_pure (by simp)
  | succ levels ih =>
    cases ids with
    | nil => exact gives_pure (by simp)
    | cons id more =>
      have hlevel : Gives (all (generation order collation records (id :: more)))
          fun nodes => ∀ n ∈ nodes, P n := by
        apply gives_all
        intro r hr
        exact h r (List.mem_filter.1 (List.mem_mergeSort.1 hr)).1
      refine gives_bind hlevel fun level hlevel => gives_bind (ih _) fun rest hrest => gives_pure ?_
      exact List.forall_mem_cons.2 ⟨hlevel, hrest⟩

theorem gives_children (h : ∀ r ∈ records, Gives r.node P) (order : OrderKey)
    (collation : Collation) (levels : Nat) (ids : List Int) :
    Gives (children order collation records levels ids) fun nodes => ∀ n ∈ nodes, P n := by
  refine gives_ask ?_
  rw [map_eq_pure_bind]
  refine gives_bind (gives_generations h order collation levels ids) fun answers hanswers =>
    gives_pure fun n hn => ?_
  obtain ⟨nodes, hnodes, hn⟩ := List.mem_flatten.1 hn
  exact hanswers nodes hnodes n hn

theorem gives_toucher (h : ∀ r ∈ records, Gives r.node P) (n : Node) (side : Side) :
    Gives (toucher? records n side) fun found =>
      ∀ n, found = some (.sibling n) ∨ found = some (.parent n) → P n := by
  refine gives_bind (gives_first h _) ?_
  intro found hfound
  cases found with
  | some n =>
    apply gives_pure
    rintro m (⟨⟨⟩⟩ | ⟨⟨⟩⟩)
    exact hfound n rfl
  | none =>
    refine gives_bind (gives_first h _) ?_
    intro found hfound
    apply gives_pure
    rintro m (hm | hm)
    · cases found <;> cases hm
    · cases found with
      | none => cases hm
      | some n =>
        cases hm
        exact hfound m rfl

theorem gives_demanded {answer : Except Refusal (Option Node)}
    (h : Gives answer fun found => ∀ n, found = some n → P n) (e : TreeError) :
    Gives (do match ← ask answer with | some n => return n | none => throw e) P := by
  refine gives_bind (gives_ask h) ?_
  intro found hfound
  cases found with
  | none => exact gives_error _
  | some n => exact gives_pure (hfound n rfl)

theorem gives_element (h : ∀ r ∈ records, Gives r.node P) (id : Int) :
    Gives (element records id) P := gives_demanded (gives_first h _) _

theorem gives_root (h : ∀ r ∈ records, Gives r.node P) : Gives (root records) P :=
  gives_demanded (gives_first h _) _

theorem gives_around {α : Type} {Q : α → Prop} {id : Int} {f : Node → Except TreeError α}
    (hf : ∀ n, Gives (f n) Q) : Gives (element records id >>= f) Q :=
  gives_bind (gives_true _) fun n _ => hf n

theorem gives_parent (h : ∀ r ∈ records, Gives r.node P) (id : Int) :
    Gives (parent records id) fun found => ∀ n, found = some n → P n := by
  refine gives_around fun n => ?_
  cases n.parent with
  | none => exact gives_pure (by simp)
  | some parent => exact gives_ask (gives_first h _)

theorem gives_neighbor (h : ∀ r ∈ records, Gives r.node P) (id : Int) (side : Side) :
    Gives (neighbor records id side) fun found =>
      ∀ n, found = some (.sibling n) ∨ found = some (.parent n) → P n :=
  gives_around fun n => gives_ask (gives_toucher h n side)

end Reading

theorem Schema.element?_of_absent {s : Schema} {db : Database} (hi : s.Installed db) {id : Int}
    (hid : id ∉ s.rowIds db) : s.element? id db = .ok none := by
  obtain ⟨t, ht, hd⟩ := hi
  have hfind : (s.rows db).find? (fun r => decide (r.id = id)) = none := by
    rw [List.find?_eq_none]
    intro r hr he
    exact hid (List.mem_map.2 ⟨r, hr, of_decide_eq_true he⟩)
  rw [element?_eq ht hd, hfind]

namespace Handle

/-- No answer of a reader shows a node of the given id. -/
structure Hides (h : Handle) (store : Store) (id : Int) : Prop where
  element : h.read store (Reading.element · id) = .error (.notFound id)
  elements : ∀ i, Gives (h.read store (Reading.element · i)) fun n => n.id ≠ id
  root : Gives (h.read store Reading.root) fun n => n.id ≠ id
  firstChild : ∀ i, Gives (h.read store (Reading.firstChild · i))
    fun found => ∀ n, found = some n → n.id ≠ id
  parent : ∀ i, Gives (h.read store (Reading.parent · i))
    fun found => ∀ n, found = some n → n.id ≠ id
  nextSibling : ∀ i, Gives (h.read store (Reading.nextSibling · i))
    fun found => ∀ n, found = some n → n.id ≠ id
  previousSibling : ∀ i, Gives (h.read store (Reading.previousSibling · i))
    fun found => ∀ n, found = some n → n.id ≠ id
  neighbor : ∀ i side, Gives (h.read store (Reading.neighbor · i side))
    fun found => ∀ n, found = some (.sibling n) ∨ found = some (.parent n) → n.id ≠ id
  path : ∀ i, Gives (h.read store (Reading.path · i)) fun nodes => ∀ n ∈ nodes, n.id ≠ id
  subtree : ∀ i, Gives (h.read store (Reading.subtree · i)) fun nodes => ∀ n ∈ nodes, n.id ≠ id
  nodes : Gives (h.nodes store) fun nodes => ∀ n ∈ nodes, n.id ≠ id
  children : ∀ levels ids, Gives (h.children store levels ids)
    fun nodes => ∀ n ∈ nodes, n.id ≠ id

variable {h : Handle} {store : Store} {id : Int}

theorem hides_of_absent (hi : h.schema.Installed (store.view h.connection))
    (hid : id ∉ h.schema.rowIds (store.view h.connection)) : h.Hides store id := by
  have hnone := Schema.element?_of_absent hi hid
  obtain ⟨t, ht, hd⟩ := hi
  have hrecords := Schema.records_of_table? ht
  have hread : ∀ {α : Type} (question : List Record → Except TreeError α),
      h.read store question = question (h.schema.recordsOf t) := read_of_records hrecords
  have hne : ∀ r ∈ h.schema.recordsOf t, Gives r.node fun n => n.id ≠ id := by
    rintro _ hr n hn rfl
    obtain ⟨row, hrow, rfl⟩ := List.mem_map.1 hr
    rw [Schema.rowIds, Schema.rows_of_table? ht] at hid
    exact hid (List.mem_map.2 ⟨row, hrow, (Schema.id_of_shown hd hn).symm⟩)
  have hsublist : ∀ p : Record → Bool, ∀ r ∈ (h.schema.recordsOf t).filter p,
      Gives r.node fun n => n.id ≠ id := fun p r hr => hne r (List.mem_filter.1 hr).1
  constructor
  case element =>
    rw [Schema.element?, hrecords] at hnone
    change Reading.element? (h.schema.recordsOf t) id = .ok none at hnone
    rw [hread, Reading.element, hnone]
    rfl
  case elements =>
    intro i
    rw [hread]
    exact Reading.gives_element hne i
  case root =>
    rw [hread]
    exact Reading.gives_root hne
  case parent =>
    intro i
    rw [hread]
    exact Reading.gives_parent hne i
  case neighbor =>
    intro i side
    rw [hread]
    exact Reading.gives_neighbor hne i side
  case firstChild | nextSibling | previousSibling =>
    intro i
    rw [hread]
    exact Reading.gives_around fun n => Reading.gives_ask (Reading.gives_first hne _)
  case path | subtree =>
    intro i
    rw [hread]
    exact Reading.gives_around fun n => Reading.gives_nodes (hsublist _)
  case nodes =>
    rw [Handle.nodes, hread]
    exact Reading.gives_nodes hne
  case children =>
    intro levels ids
    unfold children
    split
    · exact gives_pure (by simp)
    · rw [hread]
      exact Reading.gives_children hne _ _ _ _

end Handle

/-! ### What edits look up -/

def Placement.target? : Placement → Option Int
  | root => none
  | firstChildOf id => some id
  | after id => some id

/-- The ids that an edit looks up, one after another, when nothing is wrong with it apart from
what is in the tree. -/
def Edit.sought (s : Schema) : Edit → List Int
  | add payload placement =>
    if (s.resolve payload).toBool then placement.target?.toList else []
  | remove id => [id]
  | move id placement =>
    match placement.target? with
    | some target => if target = id then [] else [target, id]
    | none => []
  | update id payload => if !payload.isEmpty && (s.resolve payload).toBool then [id] else []
  | copy _ _ => []

namespace Editing

open Procedure

variable {α : Type} {s : Schema} {db db' : Database} {id : Int}

theorem ends_bind_of_error {β : Type} {p : Procedure α} {f : α → Procedure β} {e : TreeError}
    (hp : ∀ answer db', p.Ends s db answer db' → answer = .error e) {answer : Except TreeError β}
    (h : (p >>= f).Ends s db answer db') : answer = .error e := by
  obtain ⟨a, db₁, ha, -⟩ | ⟨e', herror, rfl⟩ := ends_bind.1 h
  · cases hp _ _ ha
  · cases hp _ _ herror
    rfl

theorem ends_element_of_absent (hi : s.Installed db) (hid : id ∉ s.rowIds db)
    {answer : Except TreeError Node} (h : (element id).Ends s db answer db') :
    answer = .error (.notFound id) := by
  obtain ⟨-, ⟨n, hfound, -⟩ | ⟨-, rfl⟩⟩ := ends_element h
  · cases hfound.symm.trans (Schema.element?_of_absent hi hid)
  · rfl

theorem ends_of_absent (hi : s.Installed db) (hid : id ∉ s.rowIds db) {f : Node → Procedure α}
    {answer : Except TreeError α} (h : (element id >>= f).Ends s db answer db') :
    answer = .error (.notFound id) :=
  ends_bind_of_error (fun _ _ hp => ends_element_of_absent hi hid hp) h

theorem ends_site_of_absent (hi : s.Installed db) (hid : id ∉ s.rowIds db) {placement : Placement}
    (htarget : placement.target? = some id) {answer : Except TreeError (Option Int × Int)}
    (h : (site placement).Ends s db answer db') : answer = .error (.notFound id) := by
  cases placement with
  | root => cases htarget
  | firstChildOf target =>
    cases htarget
    exact ends_of_absent hi hid h
  | after target =>
    cases htarget
    exact ends_of_absent hi hid h

theorem ends_add_of_absent (hi : s.Installed db) (hid : id ∉ s.rowIds db) {placement : Placement}
    (htarget : placement.target? = some id) {payload : Payload} {values : List (Field × Value)}
    (hvalues : s.resolve payload = .ok values) {answer : Except TreeError Int}
    (h : (add s payload placement).Ends s db answer db') : answer = .error (.notFound id) := by
  unfold add at h
  rw [hvalues] at h
  obtain ⟨_, _, ⟨⟨⟩, rfl⟩, hadd⟩ | ⟨e, ⟨⟨⟩, -⟩, -⟩ := ends_bind.1 h
  exact ends_bind_of_error (fun _ _ hsite => ends_site_of_absent hi hid htarget hsite) hadd

theorem ends_of_present (hi : s.Installed db) (hid : id ∈ s.rowIds db) {f : Node → Procedure α}
    {answer : Except TreeError α} (h : (element id >>= f).Ends s db answer db') :
    ∃ n, (f n).Ends s db answer db' := by
  obtain ⟨n, db₁, hfound, hrest⟩ | ⟨e, herror, -⟩ := ends_bind.1 h
  · obtain ⟨rfl, -⟩ := ends_element_ok hfound
    exact ⟨n, hrest⟩
  · exact absurd herror (not_ends_element_error ((Schema.has_iff hi).2 hid))

theorem ends_moveTo_of_absent (hi : s.Installed db) {tie : Tie} {targetId missing : Int}
    (hne : targetId ≠ id) (hmissing : [targetId, id].find? (· ∉ s.rowIds db) = some missing)
    {answer : Except TreeError MoveOutcome} (h : (moveTo id tie targetId).Ends s db answer db') :
    answer = .error (.notFound missing) := by
  unfold moveTo at h
  rw [if_neg hne] at h
  by_cases htarget : targetId ∈ s.rowIds db
  · obtain ⟨target, h⟩ := ends_of_present hi htarget h
    rw [List.find?_cons_of_neg (by simpa using htarget)] at hmissing
    have hid := List.find?_some hmissing
    obtain rfl : missing = id := by simpa using List.mem_of_find?_eq_some hmissing
    exact ends_of_absent hi (by simpa using hid) h
  · rw [List.find?_cons_of_pos (by simpa using htarget)] at hmissing
    cases hmissing
    exact ends_of_absent hi htarget h

theorem ends_update_of_absent (hs : s.Sound) (hi : s.Installed db) (hid : id ∉ s.rowIds db)
    {payload : Payload} (hempty : payload.isEmpty = false) {values : List (Field × Value)}
    (hvalues : s.resolve payload = .ok values) {answer : Except TreeError Unit}
    (h : (update s id payload).Ends s db answer db') : answer = .error (.notFound id) := by
  unfold update at h
  rw [if_neg (by simp [hempty]), hvalues] at h
  obtain ⟨_, _, ⟨⟨⟩, rfl⟩, hrevised⟩ | ⟨e, ⟨⟨⟩, -⟩, -⟩ := ends_bind.1 h
  obtain ⟨(rows : Nat), db₁, hrevise, hrest⟩ | ⟨e, herror, -⟩ := ends_bind.1 hrevised
  swap
  · exact absurd herror (not_ends_error (smooth_request _))
  obtain ⟨_, hstatement, ⟨⟩⟩ := ends_request.1 hrevise
  obtain ⟨t, ht, hd, hcount, -⟩ := Schema.revise_ok hs hi (c := .payload id values)
    (Schema.mem_fields_of_resolve hvalues) hstatement
  have hzero : rows = 0 := by
    rw [hcount, List.countP_eq_zero]
    intro r hr hselects
    obtain ⟨hin, hpick⟩ := Bool.and_eq_true_iff.1 hselects
    have hrow : r.id = id := by
      have hcell : (s.record t r).id.value = .integer r.id := by
        rw [Schema.record, Table.cell_of_isId (Schema.isId_id hd)]
      exact of_decide_eq_true ((Cell.equals_of_integer hcell id).symm.trans hpick)
    rw [Schema.rowIds, Schema.rows_of_table? ht] at hid
    exact hid (List.mem_map.2 ⟨r, List.mem_filter.2 ⟨hr, hin⟩, hrow⟩)
  subst hzero
  exact (ends_throw.1 hrest).1

end Editing

/-- An edit that is refused no statement fails for the first id that it looks up in vain. -/
theorem Edit.notFound_of_sought {s : Schema} {db db' : Database} (hs : s.Sound)
    (hi : s.Installed db) {e : Edit} {id : Int}
    (hid : (e.sought s).find? (· ∉ s.rowIds db) = some id) {answer : Except TreeError Answer}
    (h : (e.procedure s).Ends s db answer db') : answer = .error (.notFound id) := by
  have hmem := List.mem_of_find?_eq_some hid
  have habsent : id ∉ s.rowIds db := by simpa using List.find?_some hid
  cases e with
  | add payload placement =>
    obtain ⟨created, hends, rfl⟩ := Procedure.ends_map.1 h
    simp only [sought] at hmem
    cases hresolve : s.resolve payload with
    | error error => simp [hresolve, Except.toBool] at hmem
    | ok values =>
      simp only [hresolve, Except.toBool, if_true, Option.mem_toList] at hmem
      rw [Editing.ends_add_of_absent hi habsent hmem hresolve hends]
      rfl
  | remove id =>
    obtain ⟨rows, hends, rfl⟩ := Procedure.ends_map.1 h
    obtain rfl := List.mem_singleton.1 hmem
    rw [Editing.ends_of_absent hi habsent hends]
    rfl
  | move moved placement =>
    obtain ⟨outcome, hends, rfl⟩ := Procedure.ends_map.1 h
    have hmove : ∀ (tie : Editing.Tie) (target : Int), placement.target? = some target →
        (Editing.moveTo moved tie target).Ends s db outcome db' →
        outcome = .error (.notFound id) := by
      intro tie target htarget h
      simp only [sought, htarget] at hid
      split at hid
      · cases hid
      · rename_i hne
        exact Editing.ends_moveTo_of_absent hi hne hid h
    cases placement with
    | root => cases hmem
    | firstChildOf target =>
      rw [hmove .firstChild target rfl hends]
      rfl
    | after target =>
      rw [hmove .nextSibling target rfl hends]
      rfl
  | update id payload =>
    obtain ⟨done, hends, rfl⟩ := Procedure.ends_map.1 h
    simp only [sought] at hmem
    split at hmem
    · rename_i haccepted
      rw [Bool.and_eq_true_iff, Bool.not_eq_true'] at haccepted
      obtain ⟨hempty, hresolve⟩ := haccepted
      obtain rfl := List.mem_singleton.1 hmem
      cases hvalues : s.resolve payload with
      | error error => simp [hvalues, Except.toBool] at hresolve
      | ok values =>
        rw [Editing.ends_update_of_absent hs hi habsent hempty hvalues hends]
        rfl
    · cases hmem
  | copy id placement => cases hmem

end NestedSet
