import Mathlib
import NestedSet.Nesting

/-!
# The sweep without its stack

Popping the closed intervals only spares the sweep from looking at them again.
In sorted nodes the interval on top of the stack is the latest one before the
node, in the order of the sweep, that does not end before the node begins.
-/

set_option autoImplicit false

namespace NestedSet.Nesting

def reaching (before : List Shape) (marker : Int) : Option Shape :=
  before.find? fun o => decide (marker ≤ o.bounds.right)

def scan : List Shape → List Shape → List Violation
  | _, [] => []
  | before, node :: rest =>
    enclosureFaults (reaching before node.bounds.left) node ++ scan (node :: before) rest

theorem find?_dropWhile {α : Type} {p q : α → Bool} (l : List α)
    (h : ∀ a, p a = true → q a = false) : (l.dropWhile p).find? q = l.find? q := by
  induction l with
  | nil => rfl
  | cons a l ih =>
    cases hp : p a with
    | true => simp [hp, h a hp, ih]
    | false => simp [hp]

theorem head?_dropWhile_closed (stack : List Shape) (node : Shape) :
    (stack.dropWhile fun top => decide (top.bounds.right < node.bounds.left)).head? =
      reaching stack node.bounds.left := by
  rw [← List.find?_not_eq_head?_dropWhile, reaching]
  congr 1
  funext o
  simp [← decide_not]

theorem sweep_eq_scan_of_agree {stack before l : List Shape}
    (hl : l.Pairwise fun a b => a.bounds.left ≤ b.bounds.left)
    (h : ∀ x ∈ l, reaching stack x.bounds.left = reaching before x.bounds.left) :
    sweep stack l = scan before l := by
  induction l generalizing stack before with
  | nil => rfl
  | cons node rest ih =>
    obtain ⟨hn, hr⟩ := List.pairwise_cons.1 hl
    simp only [sweep, scan, head?_dropWhile_closed]
    rw [h node List.mem_cons_self, ih hr]
    intro x hx
    have hd := @find?_dropWhile _ (fun top : Shape => decide (top.bounds.right < node.bounds.left))
      (fun o => decide (x.bounds.left ≤ o.bounds.right)) stack (by
        intro o ho
        have := hn x hx
        simp only [decide_eq_true_eq] at ho
        simp only [decide_eq_false_iff_not]
        omega)
    have hx' : reaching stack x.bounds.left = reaching before x.bounds.left :=
      h x (List.mem_cons_of_mem _ hx)
    unfold reaching at hx' ⊢
    rw [List.find?_cons, List.find?_cons, hd, hx']

theorem sweep_eq_scan {l : List Shape} (hl : l.Pairwise fun a b => a.bounds.left ≤ b.bounds.left) :
    sweep [] l = scan [] l :=
  sweep_eq_scan_of_agree hl fun _ _ => rfl

theorem scan_append (before l m : List Shape) :
    scan before (l ++ m) = scan before l ++ scan (l.reverse ++ before) m := by
  induction l generalizing before with
  | nil => rfl
  | cons node rest ih => simp [scan, ih]

theorem enclosureFaults_eq_nil_iff {outer : Option Shape} {node : Shape} :
    enclosureFaults outer node = [] ↔
      (∀ o, outer = some o → o.bounds.contains node.bounds = true) ∧
        node.parent = outer.map (·.id) := by
  cases outer with
  | none => simp [enclosureFaults]
  | some o => simp [enclosureFaults]

theorem reaching_append_of_lt {before l : List Shape} {marker : Int}
    (h : ∀ o ∈ l, o.bounds.right < marker) :
    reaching (l ++ before) marker = reaching before marker := by
  have hn : l.find? (fun o => decide (marker ≤ o.bounds.right)) = none := by
    rw [List.find?_eq_none]
    intro o ho
    have := h o ho
    simp only [decide_eq_true_eq]
    omega
  rw [reaching, List.find?_append, hn, Option.none_or, reaching]

theorem reaching_cons_of_le {before : List Shape} {node : Shape} {marker : Int}
    (h : marker ≤ node.bounds.right) : reaching (node :: before) marker = some node := by
  simp [reaching, h]

theorem reaching_cons_of_lt {before : List Shape} {node : Shape} {marker : Int}
    (h : node.bounds.right < marker) : reaching (node :: before) marker = reaching before marker :=
  reaching_append_of_lt (l := [node]) (by simpa using h)

end NestedSet.Nesting
