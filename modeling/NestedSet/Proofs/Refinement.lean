import Mathlib
import NestedSet.Proofs.Atomicity
import NestedSet.Proofs.Standing

/-!
# A handle refines an ordered tree

A handle that is opened on an empty database, and then asked for any edits,
behaves like an ordered tree that is edited in the same way: it gives the
answers of the tree, and after every edit it lists the nodes of the tree with
the numbers of their walk.
-/

set_option autoImplicit false

namespace NestedSet

structure Growth where
  tree : Forest Item := .nil
  last : Int := 0

namespace Growth

def edit (s : Schema) (g : Growth) (e : Edit) : Except TreeError Answer × Growth :=
  match e.onForest s (g.last + 1) g.tree with
  | .error error => (.error error, g)
  | .ok (a, f) => (.ok a, ⟨f, if a = .created (g.last + 1) then g.last + 1 else g.last⟩)

def history (s : Schema) : Growth → List Edit → List (Except TreeError Answer × List Node)
  | _, [] => []
  | g, e :: rest =>
    let (answer, g) := g.edit s e
    (answer, g.tree.nodes) :: history s g rest

end Growth

namespace Handle

def history (h : Handle) : Store → List Edit →
    List (Except TreeError Answer × Except TreeError (List Node))
  | _, [] => []
  | s, e :: rest =>
    let o := h.edit s e
    (o.answer, h.nodes o.store) :: h.history o.store rest

/-- No statement of the edits is refused. -/
def Unhindered (h : Handle) : Store → List Edit → Prop
  | _, [] => True
  | s, e :: rest =>
    (∀ c ∈ h.calls s e [], c.2 = none) ∧ h.Unhindered (h.edit s e).store rest

instance decidableUnhindered (h : Handle) :
    (s : Store) → (edits : List Edit) → Decidable (h.Unhindered s edits)
  | _, [] => .isTrue trivial
  | s, e :: rest =>
    have := decidableUnhindered h (h.edit s e).store rest
    inferInstanceAs (Decidable (_ ∧ _))

variable {h : Handle} {db : Database} {t : Table} {g : Growth} {supply : Supply}

theorem edit_of_stands (hs : h.schema.Sound) (hst : Stands h.schema db t g.tree supply)
    (hnext : supply.next? = some (g.last + 1)) {e : Edit}
    (hc : ∀ c ∈ h.calls ⟨db, none⟩ e [], c.2 = none) :
    (h.edit ⟨db, none⟩ e).answer = (g.edit h.schema e).1 ∧
      ∃ db' t' supply', (h.edit ⟨db, none⟩ e).store = ⟨db', none⟩ ∧
        Stands h.schema db' t' (g.edit h.schema e).2.tree supply' ∧
        supply'.next? = some ((g.edit h.schema e).2.last + 1) := by
  rcases hr : (e.procedure h.schema).result h.schema { database := db } with ⟨answer, d⟩
  have hunhindered : ∀ step refusal, (h.edit ⟨db, none⟩ e).answer ≠
      .error (.backend step refusal) := by
    intro step refusal ha
    obtain ⟨call, hcall, -⟩ := exists_mem_calls ha
    cases hc _ hcall
  have hready : ([] : Mishaps).head?.join = none := rfl
  have hmishaps : d.mishaps = [] := by
    have hdrop := Procedure.mishaps_result h.schema (e.procedure h.schema) { database := db }
    rwa [hr, List.drop_nil] at hdrop
  obtain ⟨t', -, ⟨step, refusal, rfl⟩ | ⟨new, hnew, hanswer, hst'⟩⟩ :=
    Edit.result_of_stands hs (d := { database := db }) hst e hr
  · refine absurd ?_ (hunhindered step refusal)
    rw [edit_of_error hready hr]
  · obtain rfl := hnew _ hnext
    unfold Growth.edit
    unfold Edit.grown at hst'
    cases he : e.onForest h.schema (g.last + 1) g.tree with
    | error error =>
      rw [he] at hanswer
      rw [hanswer] at hr
      rw [edit_of_error hready hr]
      exact ⟨rfl, db, t, supply, rfl, hst, hnext⟩
    | ok x =>
      obtain ⟨a, f⟩ := x
      rw [he] at hanswer hst'
      rw [hanswer] at hr hst'
      rw [edit_of_ok hready hr, hmishaps]
      refine ⟨rfl, d.database, t', _, rfl, hst', ?_⟩
      by_cases ha : a = .created (g.last + 1)
      · simp only [ha, Except.map, if_true]
        exact Supply.next?_after hnext _
      · simp only [ha, Except.map, Except.ok.injEq, if_false]
        exact hnext

theorem nodes_of_stands (hst : Stands h.schema db t g.tree supply) :
    h.nodes ⟨db, none⟩ = .ok g.tree.nodes := by
  exact (read_of_records hst.keeps.records_eq _).trans hst.keeps.reads.nodes_eq

theorem history_of_stands (hs : h.schema.Sound) (hst : Stands h.schema db t g.tree supply)
    (hnext : supply.next? = some (g.last + 1)) {edits : List Edit}
    (hc : h.Unhindered ⟨db, none⟩ edits) :
    h.history ⟨db, none⟩ edits =
      (g.history h.schema edits).map fun x => (x.1, .ok x.2) := by
  induction edits generalizing db t g supply with
  | nil => rfl
  | cons e rest ih =>
    obtain ⟨hanswer, db', t', supply', hstore, hst', hnext'⟩ := edit_of_stands hs hst hnext hc.1
    have hrest := hc.2
    rw [hstore] at hrest
    rw [history, Growth.history, List.map_cons]
    simp only
    rw [hanswer, hstore, nodes_of_stands hst', ih hst' hnext' hrest]

end Handle

/-- A handle on an empty table with covered types refines an ordered tree. As long as no statement
is refused, every edit answers what it answers on the tree, and the nodes that are listed after it
are those of the tree with the numbers of their walk. -/
theorem history_eq_growth {config : Config} {connection : Nat} {h : Handle} {events : List Event}
    {s : Store} (ho : Handle.open? true connection config = .ok (h, events))
    (hcovered : h.schema.IsCovered) (he : h.ensure {} = (.ok (), s)) (edits : List Edit)
    (hc : h.Unhindered s edits) :
    h.history s edits = (Growth.history h.schema {} edits).map fun x => (x.1, .ok x.2) := by
  have hm : config.mapping.validate = .ok h.schema := by
    unfold Handle.open? at ho
    simp only [if_true] at ho
    split at ho
    · cases ho
    · rename_i schema hv
      cases ho
      exact hv
  obtain ⟨hs, db, supply, rfl, hst, hnext⟩ := Handle.stands_ensure hm hcovered he
  exact Handle.history_of_stands (g := {}) hs hst hnext hc

theorem sound_plainHandle : plainHandle.schema.Sound :=
  ⟨by decide +kernel, by decide +kernel, by decide +kernel, by rintro name ⟨⟩⟩

def sampleConfig : Config :=
  { mapping := { table := "t", fields := [.typed "name" "TEXT"], ids := .sequence "s" } }

def sampleHandle : Handle :=
  ⟨0, ⟨⟨"t"⟩, ⟨"id"⟩, ⟨"l"⟩, ⟨"r"⟩, ⟨"parent"⟩, none, [⟨"name", ⟨"name"⟩, some "TEXT"⟩], .left,
    .sequence ⟨"s"⟩⟩⟩

theorem sound_sampleHandle : sampleHandle.schema.Sound := by
  refine ⟨by decide +kernel, by decide +kernel, by decide +kernel, ?_⟩
  rintro name ⟨⟩
  decide +kernel

def sampleEdits : List Edit :=
  [.add [("name", .integer 7)] .root, .add [] (.firstChildOf 1), .add [] (.after 2),
    .move 1 (.after 3), .move 2 (.after 2), .update 3 [("left", .null)], .remove 2,
    .update 2 [("name", .null)], .add [] .root]

/-- Edits that succeed and edits that fail, on a tree of three nodes. -/
theorem history_eq_growth_sample :
    let s := (sampleHandle.ensure {}).2
    Handle.open? true 0 sampleConfig = .ok (sampleHandle, [.handleReady "t"]) ∧
      sampleHandle.ensure {} = (.ok (), s) ∧ sampleHandle.Unhindered s sampleEdits ∧
      (sampleHandle.history s sampleEdits).map (·.1) =
        [.ok (.created 1), .ok (.created 2), .ok (.created 3),
          .error (.invalidMove .underDescendant), .ok (.placed .alreadyInPlace),
          .error (.protectedField "left"), .ok (.deleted 1), .error (.notFound 2),
          .error (.invalidInput .rootExists)] := by
  intro s
  have ho : Handle.open? true 0 sampleConfig = .ok (sampleHandle, [.handleReady "t"]) := by
    decide +kernel
  have he : sampleHandle.ensure {} = (.ok (), s) := by decide +kernel
  have hc : sampleHandle.Unhindered s sampleEdits := by decide +kernel
  refine ⟨ho, he, hc, ?_⟩
  rw [history_eq_growth ho (by decide +kernel) he sampleEdits hc]
  decide +kernel

end NestedSet
