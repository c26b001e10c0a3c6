import Mathlib
import NestedSet.Editing
import NestedSet.Proofs.Grafting

/-!
# Ledgers

A ledger is what the statements of an edit can see of one tree: its nodes, in
no order, and what is known of the ids still to come. Every statement has a
meaning on ledgers, and so has a whole procedure: what holds of every ledger
and answer that it can end with, as long as no statement is refused.
-/

set_option autoImplicit false

namespace NestedSet

/-- What is known of where the next id comes from. -/
inductive Supply where
  | unknown
  /-- The table counts, and gave this id last. -/
  | counted (last : Int)
  /-- A sequence counts, and gave this id last if it has begun. -/
  | sequence (last : Option Int)
  deriving DecidableEq, Repr

namespace Supply

/-- After a row with an id has been inserted. A sequence that has not begun says nothing of the
ids that come otherwise. -/
def inserted (id : Int) : Supply → Supply
  | counted last => counted (max last id)
  | sequence none => unknown
  | supply => supply

def drawn (id : Int) : Supply → Supply
  | sequence _ => sequence (some id)
  | supply => supply

def next? : Supply → Option Int
  | unknown => none
  | counted last => some (last + 1)
  | sequence last => some (last.getD 0 + 1)

def after (id : Int) : Supply → Supply
  | unknown => unknown
  | counted _ => counted id
  | sequence _ => sequence (some id)

theorem next?_after {supply : Supply} {n : Int} (h : supply.next? = some n) (id : Int) :
    (supply.after id).next? = some (id + 1) := by
  cases supply with
  | unknown => cases h
  | counted last => rfl
  | sequence last => rfl

def Fits (ids : IdSource Identifier) : Supply → Prop
  | unknown => True
  | counted _ => ids = .autoIncrement
  | sequence _ => ids ≠ .autoIncrement

end Supply

structure Ledger where
  nodes : List Node
  supply : Supply := .unknown
  deriving DecidableEq, Repr

namespace Schema

def held (s : Schema) (f : Field) (v : Value) : Value := (Table.ofSchema s).hold f.column.key v

def unset (s : Schema) (f : Field) : Value :=
  (((Table.ofSchema s).column? f.column.key).map Column.initial).getD .null

def newPayload (s : Schema) (values : List (Field × Value)) : Payload :=
  s.fields.map fun f => (f.name, ((values.lookup f).map (s.held f)).getD (s.unset f))

def overwrite (s : Schema) (values : List (Field × Value)) (payload : Payload) : Payload :=
  values.foldl (fun p x => Entries.put x.1.name (s.held x.1 x.2) p) payload

end Schema

def Node.onBounds (f : Bounds → Bounds) (n : Node) : Node :=
  { n with left := (f n.bounds).left, right := (f n.bounds).right }

def Ledger.onBounds (f : Bounds → Bounds) (l : Ledger) : Ledger :=
  { l with nodes := l.nodes.map (Node.onBounds f) }

namespace Change

def picks : Change → Node → Bool
  | .pushLefts pivot _, n => decide (pivot < n.left)
  | .pushRights pivot _, n => decide (pivot < n.right)
  | .reparent id _, n => decide (n.id = id)
  | .shiftInside subtree _, n => decide (subtree.left ≤ n.left) && decide (n.right ≤ subtree.right)
  | .pullFollowing gap, n => decide (gap.left < n.left)
  | .pullEnclosing gap, n => decide (n.left < gap.left) && decide (gap.right < n.right)
  | .payload id _, n => decide (n.id = id)

def revised (s : Schema) : Change → Node → Node
  | .pushLefts _ width, n => { n with left := n.left + width }
  | .pushRights _ width, n => { n with right := n.right + width }
  | .reparent _ parent, n => { n with parent := some parent }
  | .shiftInside _ offset, n => n.onBounds (·.shifted offset)
  | .pullFollowing gap, n => n.onBounds (·.shifted (-gap.span))
  | .pullEnclosing gap, n => { n with right := n.right - gap.span }
  | .payload _ values, n => { n with payload := s.overwrite values n.payload }

def onNode (s : Schema) (c : Change) (n : Node) : Node := if c.picks n then c.revised s n else n

def isOfMarkers : Change → Bool
  | reparent .. => false
  | payload .. => false
  | _ => true

def reach : Change → Nat
  | .pushLefts _ width => width.natAbs
  | .pushRights _ width => width.natAbs
  | .shiftInside _ offset => offset.natAbs
  | .pullFollowing gap => gap.span.natAbs
  | .pullEnclosing gap => gap.span.natAbs
  | _ => 0

end Change

def Node.Within (bound : Nat) (n : Node) : Prop :=
  n.left.natAbs ≤ bound ∧ n.right.natAbs ≤ bound

theorem Node.Within.onNode {bound : Nat} {n : Node} (h : n.Within bound) (s : Schema)
    (c : Change) : (c.onNode s n).Within (bound + c.reach) := by
  unfold Change.onNode
  split
  · cases c <;>
      simp only [Within, Change.revised, Change.reach, Node.onBounds, Bounds.shifted,
        Node.bounds] at h ⊢ <;> omega
  · exact ⟨Nat.le_add_right_of_le h.1, Nat.le_add_right_of_le h.2⟩

namespace Request

/-- A request that keeps to the sequence and the fields of the schema. -/
def Proper (s : Schema) : Request → Prop
  | .counter sequence => s.ids = .sequence sequence
  | .setCounter sequence _ => s.ids = .sequence sequence
  | .insert _ _ _ values => ∀ x ∈ values, x.1 ∈ s.fields
  | .revise (.payload _ values) => ∀ x ∈ values, x.1 ∈ s.fields
  | _ => True

/-- A request after which the markers are still among the integers of 64 bits. -/
def InReach (s : Schema) : Request → Ledger → Prop
  | .revise c, l => c.isOfMarkers = true →
    ∀ n ∈ l.nodes, IsStorable (c.onNode s n).left ∧ IsStorable (c.onNode s n).right
  | _, _ => True

theorem InReach.revised {s : Schema} {l : Ledger} {c : Change}
    (h : (Request.revise c).InReach s l) {n : Node} (hn : n ∈ l.nodes) (hpicks : c.picks n = true)
    (hmarkers : c.isOfMarkers = true) :
    IsStorable (c.revised s n).left ∧ IsStorable (c.revised s n).right := by
  have hstorable := h hmarkers n hn
  rwa [Change.onNode, if_pos hpicks] at hstorable

/-- Markers that are some capacities of a table away from 0 are still among them. -/
theorem inReach_of_within {s : Schema} {l : Ledger} {bound : Nat}
    (h : ∀ n ∈ l.nodes, n.Within bound) {c : Change}
    (hc : bound + c.reach ≤ 64 * Table.capacity) : (Request.revise c).InReach s l := by
  intro _ n hn
  have hwithin := (h n hn).onNode s c
  have hlarge : 64 * Table.capacity < Nat.pow 2 63 := by decide
  simp only [Node.Within, IsStorable] at hwithin ⊢
  omega

def covers (range : Bounds) (n : Node) : Bool :=
  decide (range.left ≤ n.left) && decide (n.left ≤ range.right)

theorem covers_iff {range : Bounds} {n : Node} :
    covers range n = true ↔ range.left ≤ n.left ∧ n.left ≤ range.right := by
  simp [covers]

/-- What a request that is not refused may reply, and the ledger after it. -/
def Meaning (s : Schema) : (q : Request) → Ledger → q.Reply → Ledger → Prop
  | .find id, l, (found : Option Node), l' =>
    l' = l ∧ ∀ n, found = some n ↔ n ∈ l.nodes ∧ n.id = id
  | .count, l, (size : Nat), l' => l' = l ∧ size = l.nodes.length
  | .counter _, l, (value : Option Int), l' =>
    l' = l ∧ ∀ last, l.supply = .sequence last → value = last
  | .largestId, l, (id : Int), l' => l' = l ∧ (l.supply = .sequence none → id = 0)
  | .setCounter _ value, l, _, l' => l' = { l with supply := l.supply.drawn value }
  | .insert id bounds parent values, l, (new : Int), l' =>
    (∀ i, id = some i → new = i) ∧
      (id = none → ∀ last, l.supply = .counted last → new = last + 1) ∧
      l' = ⟨⟨new, bounds.left, bounds.right, parent, s.newPayload values⟩ :: l.nodes,
        l.supply.inserted new⟩
  | .delete range, l, (rows : Nat), l' =>
    rows = l.nodes.countP (covers range) ∧
      l' = { l with nodes := l.nodes.filter fun n => !covers range n }
  | .revise c, l, (rows : Nat), l' =>
    rows = l.nodes.countP c.picks ∧ l' = { l with nodes := l.nodes.map (c.onNode s) }

end Request

namespace Procedure

variable {α β : Type}

/-- Unless a statement is refused, a procedure ends with an answer and a ledger of which
`post` holds. -/
def Yields (s : Schema) : Procedure α → Ledger → (Except TreeError α → Ledger → Prop) → Prop
  | done answer, l, post => post answer l
  | issue q next, l, post =>
    (q.Proper s ∧ q.InReach s l) ∧ ∀ a l', q.Meaning s l a l' → (next a).Yields s l' post
  | report _ next, l, post => next.Yields s l post

variable {s : Schema} {l : Ledger}

theorem Yields.imp {p : Procedure α} {post post' : Except TreeError α → Ledger → Prop}
    (h : p.Yields s l post) (hpost : ∀ answer l', post answer l' → post' answer l') :
    p.Yields s l post' := by
  induction p generalizing l with
  | done answer => exact hpost _ _ h
  | issue q next ih => exact ⟨h.1, fun a l' hm => ih a (h.2 a l' hm)⟩
  | report event next ih => exact ih h

/-- What must hold after a procedure so that `post` holds after what follows on its success. -/
def andThen (s : Schema) (f : α → Procedure β) (post : Except TreeError β → Ledger → Prop) :
    Except TreeError α → Ledger → Prop
  | .ok a, l => (f a).Yields s l post
  | .error e, l => post (.error e) l

theorem yields_bind {p : Procedure α} {f : α → Procedure β}
    {post : Except TreeError β → Ledger → Prop} (h : p.Yields s l (andThen s f post)) :
    (p >>= f).Yields s l post := by
  change (p.bind f).Yields s l post
  induction p generalizing l with
  | done answer => cases answer <;> exact h
  | issue q next ih => exact ⟨h.1, fun a l' hm => ih a (h.2 a l' hm)⟩
  | report event next ih => exact ih h

theorem yields_map {p : Procedure α} {f : α → β} {post : Except TreeError β → Ledger → Prop}
    (h : p.Yields s l fun answer l' => post (answer.map f) l') : (f <$> p).Yields s l post := by
  refine yields_bind (h.imp ?_)
  intro answer l' hpost
  cases answer <;> exact hpost

end Procedure

end NestedSet
