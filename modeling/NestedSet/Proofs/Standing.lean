import Mathlib
import NestedSet.Proofs.Installing
import NestedSet.Proofs.Listing
import NestedSet.Proofs.Simulation
import NestedSet.Proofs.Transcript

/-!
# Trees that stand in a database

A tree stands in a database that keeps its nodes. An edit that is not refused
a statement answers what it answers on the tree, and the tree that it makes
stands in the database after it.
-/

set_option autoImplicit false

namespace NestedSet

/-! ### The edits of a tree make trees -/

namespace Forest

theorem isTree_of_length_roots {f g : Forest Item} (hf : f.isTree = true)
    (h : g.roots.length ≤ f.roots.length) : g.isTree = true :=
  isTree_iff_length_roots.2 (h.trans (isTree_iff_length_roots.1 hf))

theorem isTree_plant {f g : Forest Item} {leaf : Item} {placement : Placement}
    (hf : f.isTree = true) (h : f.plant leaf placement = .ok g) : g.isTree = true := by
  cases placement with
  | root =>
    cases f with
    | nil =>
      cases h
      rfl
    | tree => cases h
  | firstChildOf id =>
    simp only [plant] at h
    split at h
    · cases h
      exact isTree_of_length_roots hf (by rw [roots_insertBelow])
    · cases h
  | after id =>
    simp only [plant] at h
    split at h
    · split at h
      · cases h
      · rename_i houter
        cases h
        apply isTree_of_length_roots hf
        rw [roots_insertAfter _ (by simpa [isOutermost] using houter)]
    · cases h

theorem length_roots_erase (pick : Item → Bool) (f : Forest Item) :
    (f.erase pick).roots.length ≤ f.roots.length := by
  rw [roots_erase]
  exact List.length_filter_le _ _

theorem isTree_transplant {f g : Forest Item} {id : Int} {placement : Placement}
    {outcome : MoveOutcome} (hf : f.isTree = true)
    (h : f.transplant id placement = .ok (outcome, g)) : g.isTree = true := by
  cases placement with
  | root => cases h
  | firstChildOf target =>
    simp only [transplant] at h
    split at h
    · cases h
      exact hf
    · cases hc : f.cutting id target with
      | error e =>
        rw [hc] at h
        cases h
      | ok subtree =>
        rw [hc] at h
        cases h
        apply isTree_of_length_roots hf
        rw [roots_insertBelow]
        exact length_roots_erase _ f
  | after target =>
    simp only [transplant] at h
    split at h
    · cases h
      exact hf
    · cases hc : f.cutting id target with
      | error e =>
        rw [hc] at h
        cases h
      | ok subtree =>
        simp only [hc] at h
        split at h
        · cases h
        · rename_i houter
          cases h
          apply isTree_of_length_roots hf
          have hout : (f.erase (Item.is id)).roots.any (Item.is target) = false := by
            rw [roots_erase, List.any_eq_false]
            intro a ha
            have hmem := (List.mem_filter.1 ha).1
            simp only [isOutermost, Bool.not_eq_true, List.any_eq_false] at houter
            simp [houter a hmem]
          rw [roots_insertAfter _ hout]
          exact length_roots_erase _ f

end Forest

theorem Edit.isTree_onForest {s : Schema} {new : Int} {f g : Forest Item} {e : Edit}
    {a : Answer} (hf : f.isTree = true) (h : e.onForest s new f = .ok (a, g)) :
    g.isTree = true := by
  cases e with
  | add payload placement =>
    simp only [onForest] at h
    split at h
    · cases h
    · cases hp : f.plant ⟨new, s.newPayload (s.fieldValues payload)⟩ placement with
      | error e =>
        rw [hp] at h
        cases h
      | ok g' =>
        rw [hp] at h
        cases h
        exact Forest.isTree_plant hf hp
  | remove id =>
    simp only [onForest] at h
    split at h
    · cases h
      exact Forest.isTree_of_length_roots hf (Forest.length_roots_erase _ f)
    · cases h
  | move id placement =>
    simp only [onForest] at h
    cases ht : f.transplant id placement with
    | error e =>
      rw [ht] at h
      cases h
    | ok x =>
      rw [ht] at h
      cases h
      exact Forest.isTree_transplant hf ht
  | update id payload =>
    simp only [onForest] at h
    split at h
    · cases h
    · split at h
      · cases h
      · split at h
        · cases h
          exact Forest.isTree_of_length_roots hf (by rw [Forest.roots_map, List.length_map])
        · cases h
  | copy id placement => cases h

/-! ### Procedures on a database that keeps a ledger -/

theorem Desk.statement_of_outcome {s : Schema} {q : Request} {d : Desk} {a : q.Reply}
    {db : Database} (h : d.outcome s q = .ok (a, db)) : q.statement s d.database = .ok (a, db) := by
  unfold outcome at h
  cases hm : d.mishap? with
  | some refusal => simp [hm] at h
  | none =>
    rw [hm] at h
    simp only at h
    split at h
    · exact h
    · unfold allow at h
      split at h
      · cases hs : q.statement s d.database <;> simp [hs] at h
      · exact h

/-- Unless a statement is refused, a procedure ends as it does on the ledger. -/
theorem Procedure.result_of_yields {α : Type} {s : Schema} (hs : s.Sound) {p : Procedure α}
    {post : Except TreeError α → Ledger → Prop} {d d' : Desk} {t : Table} {l : Ledger}
    (hy : p.Yields s l post) (hk : Keeps s d.database t l) {answer : Except TreeError α}
    (h : p.result s d = (answer, d')) :
    ∃ t' l', Keeps s d'.database t' l' ∧ s.Beside t t' ∧
      ((∃ step refusal, answer = .error (.backend step refusal)) ∨ post answer l') := by
  induction p generalizing d t l with
  | done answer =>
    cases h
    exact ⟨t, l, hk, .refl s t, .inr hy⟩
  | issue q next ih =>
    unfold result Desk.serve at h
    cases ho : d.outcome s q with
    | error refusal =>
      simp only [ho] at h
      cases h
      exact ⟨t, l, hk, .refl s t, .inl ⟨q.step, refusal, rfl⟩⟩
    | ok x =>
      obtain ⟨a, db⟩ := x
      simp only [ho] at h
      obtain ⟨t₁, l₁, hm, hk₁, hb₁⟩ := hk.serve hs hy.1.1 hy.1.2 (Desk.statement_of_outcome ho)
      obtain ⟨t', l', hk', hb', hpost⟩ := ih a (hy.2 a l₁ hm) hk₁ h
      exact ⟨t', l', hk', hb₁.trans hb', hpost⟩
  | report event next ih => exact ih (d := d.report event) hy hk h

/-! ### Edits of a tree that stands -/

structure Stands (s : Schema) (db : Database) (t : Table) (f : Forest Item) (supply : Supply) :
    Prop where
  keeps : Keeps s db t ⟨f.nodes, supply⟩
  isTree : f.isTree = true

theorem Handle.stands_ensure {h : Handle} {m : Mapping} {s : Store} (hm : m.validate = .ok h.schema)
    (hcovered : h.schema.IsCovered) (he : h.ensure {} = (.ok (), s)) :
    h.schema.Sound ∧ ∃ db supply, s = ⟨db, none⟩ ∧
      Stands h.schema db (.ofSchema h.schema) .nil supply ∧ supply.next? = some 1 := by
  obtain ⟨hfields, hsequence⟩ := Mapping.validate_ok hm
  rcases hinstall : Database.install h.schema {} with ⟨answer, db⟩
  have hensure : h.ensure {} = (answer.mapError (.backend .install), ⟨db, none⟩) := by
    simp [Handle.ensure, Store.view, Store.mayWrite, Store.replace, hinstall]
  rw [hensure] at he
  cases answer with
  | error refusal => cases he
  | ok _ =>
    cases he
    obtain ⟨hdistinct, htable, hseq⟩ := Database.install_empty hsequence hinstall
    have hdeclares := h.schema.declares_ofSchema
    refine ⟨⟨hdistinct, hfields, hcovered, hsequence⟩, db, ?_⟩
    cases hids : h.schema.ids with
    | autoIncrement =>
      refine ⟨.counted 0, rfl, ⟨⟨htable, hdeclares, List.nodup_nil, .refl _, ?_⟩, rfl⟩, rfl⟩
      exact ⟨hids, by simp [Table.ofSchema, hids], le_refl _, by simp [Table.ofSchema]⟩
    | sequence name =>
      refine ⟨.sequence none, rfl, ⟨⟨htable, hdeclares, List.nodup_nil, .refl _, ?_⟩, rfl⟩, rfl⟩
      exact ⟨name, _, hids, hseq name hids, Sequence.declared_ofSequence name,
        Sequence.value?_of_empty (Sequence.declared_ofSequence name) rfl _, fun _ => rfl⟩

def Edit.grown (s : Schema) (new : Int) (f : Forest Item) (e : Edit) : Forest Item :=
  match e.onForest s new f with
  | .ok (_, g) => g
  | .error _ => f

namespace Keeps

variable {s : Schema} {db : Database} {t : Table} {l : Ledger}

theorem perm_ids (hk : Keeps s db t l) :
    ((s.scope t).map (·.id)).Perm (l.nodes.map (·.id)) := by
  have hperm := List.Perm.map (fun e => e.toOption.map Node.id) hk.reads
  rw [List.map_map, List.map_map] at hperm
  have hrows : (s.scope t).map ((fun e => e.toOption.map Node.id) ∘ s.shown t) =
      ((s.scope t).map (·.id)).map some := by
    rw [List.map_map]
    apply List.map_congr_left
    intro r hr
    obtain ⟨n, -, hn⟩ := hk.reads.exists_shown hr
    simp [hn, Except.toOption, Schema.id_of_shown hk.declares hn]
  have hnodes : l.nodes.map ((fun e => e.toOption.map Node.id) ∘ Except.ok (ε := Refusal)) =
      (l.nodes.map (·.id)).map some := by
    rw [List.map_map]
    rfl
  rw [hrows, hnodes] at hperm
  exact (List.map_perm_map_iff (Option.some_injective Int)).1 hperm

theorem nodup_ids (hk : Keeps s db t l) : (l.nodes.map (·.id)).Nodup :=
  hk.perm_ids.nodup_iff.1 ((List.filter_sublist.map _).nodup hk.ids)

theorem of_perm (hk : Keeps s db t l) {nodes : List Node} (h : l.nodes.Perm nodes) :
    Keeps s db t ⟨nodes, l.supply⟩ :=
  ⟨hk.found, hk.declares, hk.ids, List.Perm.trans hk.reads (h.map _), hk.supply⟩

theorem fits (hk : Keeps s db t l) : l.supply.Fits s.ids := by
  have hkept := hk.supply
  cases hl : l.supply with
  | unknown => trivial
  | counted last =>
    rw [hl] at hkept
    exact hkept.1
  | sequence last =>
    rw [hl] at hkept
    obtain ⟨name, q, hids, -⟩ := hkept
    rw [Supply.Fits, hids]
    simp

end Keeps

namespace Stands

variable {s : Schema} {db : Database} {t : Table} {f : Forest Item} {supply : Supply}

theorem nodup_ids (hst : Stands s db t f supply) : f.ids.Nodup := by
  rw [← Forest.map_id_nodes]
  exact hst.keeps.nodup_ids

theorem size_le (hst : Stands s db t f supply) : f.size ≤ Table.capacity := by
  rw [← Forest.length_nodes]
  exact hst.keeps.length_le

theorem yields (hst : Stands s db t f supply) (e : Edit) :
    (e.procedure s).Yields s ⟨f.nodes, supply⟩ fun answer l' =>
      ∃ new, (∀ n, supply.next? = some n → new = n) ∧
        Agrees ⟨f.nodes, supply⟩ (if answer = .ok (.created new) then supply.after new else supply)
          (e.onForest s new f) answer l' :=
  e.yields_procedure (.refl _) hst.nodup_ids hst.size_le hst.keeps.fits

end Stands

/-- Unless a statement is refused, an edit answers what it answers on the tree that stands, and
the tree that it makes stands after it. -/
theorem Edit.result_of_stands {s : Schema} (hs : s.Sound) {d d' : Desk} {t : Table}
    {f : Forest Item} {supply : Supply} (hst : Stands s d.database t f supply) (e : Edit)
    {answer : Except TreeError Answer} (h : (e.procedure s).result s d = (answer, d')) :
    ∃ t', s.Beside t t' ∧ ((∃ step refusal, answer = .error (.backend step refusal)) ∨
      ∃ new, (∀ n, supply.next? = some n → new = n) ∧
        answer = (e.onForest s new f).map (·.1) ∧
        Stands s d'.database t' (e.grown s new f)
          (if answer = .ok (.created new) then supply.after new else supply)) := by
  obtain ⟨t', l', hk, hb, hend⟩ := Procedure.result_of_yields hs (hst.yields e) hst.keeps h
  refine ⟨t', hb, hend.imp_right ?_⟩
  rintro ⟨new, hnew, hagrees⟩
  refine ⟨new, hnew, ?_⟩
  unfold Edit.grown
  cases he : e.onForest s new f with
  | error err =>
    rw [he] at hagrees
    obtain ⟨rfl, rfl⟩ := hagrees
    exact ⟨rfl, hk, hst.isTree⟩
  | ok x =>
    obtain ⟨a, g⟩ := x
    rw [he] at hagrees
    obtain ⟨rfl, hperm, hsupply⟩ := hagrees
    refine ⟨rfl, ?_, Edit.isTree_onForest hst.isTree he⟩
    rw [← hsupply]
    exact hk.of_perm hperm

end NestedSet
