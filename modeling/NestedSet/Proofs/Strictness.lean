import Mathlib
import NestedSet.Proofs.Decoding
import NestedSet.Proofs.Validation

/-!
# Which keys of a configuration are declared

Every record refuses a key that it does not declare, but an id source looks only
for its kind and its table and lets the other keys be. So a text that is read
holds declared keys alone, except beside the kind of its id source, and what
stands there makes no difference to the configuration.
-/

set_option autoImplicit false

namespace NestedSet

namespace Decode

/-! ### Declared keys -/

/-- What a value is decoded into. -/
inductive Place where
  | record (r : Record)
  | fields
  | idSource
  /-- A value that has no keys. -/
  | plain
  deriving DecidableEq, Repr

def Record.place : Record → String → Place
  | .config, "schema" => .record .mapping
  | .mapping, "columns" => .record .columns
  | .mapping, "payload" => .fields
  | .mapping, "partition" => .record .partition
  | .mapping, "ids" => .idSource
  | _, _ => .plain

def idKeys (members : List (String × Document)) : List String :=
  match members.lookup "kind" with
  | some (.string "sequence") => ["kind", "table"]
  | _ => ["kind"]

def IsAtom : Document → Prop
  | .array _ => False
  | .object _ => False
  | _ => True

/-- Every key in the document is declared by what its object is decoded into, and every item
of an array has a key that it stands for. -/
inductive Declared : Place → Document → Prop
  | atom {p : Place} {d : Document} (h : IsAtom d) : Declared p d
  | record {r : Record} {members : List (String × Document)} (hkeys : ∀ m ∈ members, m.1 ∈ r.keys)
      (h : ∀ m ∈ members, Declared (r.place m.1) m.2) : Declared (.record r) (.object members)
  | positions {r : Record} {items : List Document} (hlength : items.length ≤ r.keys.length)
      (h : ∀ m ∈ r.keys.zip items, Declared (r.place m.1) m.2) :
      Declared (.record r) (.array items)
  | fields {items : List Document} (h : ∀ d ∈ items, Declared (.record .field) d) :
      Declared .fields (.array items)
  | idSource {members : List (String × Document)} (hkeys : ∀ m ∈ members, m.1 ∈ idKeys members)
      (h : ∀ m ∈ members, Declared .plain m.2) : Declared .idSource (.object members)
  | idItems {items : List Document} (h : ∀ d ∈ items, Declared .plain d) :
      Declared .idSource (.array items)

/-! ### Taking undeclared keys away -/

/-- An id source without the keys that its kind does not declare. -/
def pruneIds : Document → Document
  | .object members => .object (members.filter fun m => m.1 ∈ idKeys members)
  | d => d

def Record.mapValue (r : Record) (key : String) (f : Document → Document) : Document → Document
  | .object members => .object (members.map fun m => if m.1 = key then (m.1, f m.2) else m)
  | .array items => .array (items.modify (r.keys.idxOf key) f)
  | d => d

def prune : Document → Document :=
  Record.mapValue .config "schema" (Record.mapValue .mapping "ids" pruneIds)

def Record.members (r : Record) : Document → List (String × Document)
  | .object members => members
  | .array items => r.keys.zip items
  | _ => []

theorem Record.nodup_keys (r : Record) : r.keys.Nodup := by
  cases r <;> decide

theorem zip_modify {keys : List String} (hkeys : keys.Nodup) (items : List Document) (key : String)
    (f : Document → Document) :
    keys.zip (items.modify (keys.idxOf key) f) =
      (keys.zip items).map fun m => if m.1 = key then (m.1, f m.2) else m := by
  induction keys generalizing items with
  | nil => rfl
  | cons k rest ih =>
    obtain ⟨hk, hrest⟩ := List.nodup_cons.1 hkeys
    cases items with
    | nil => simp
    | cons d items =>
      by_cases hkey : k = key
      · subst hkey
        have hothers : (rest.zip items).map (fun m => if m.1 = k then (m.1, f m.2) else m) =
            rest.zip items := by
          rw [List.map_congr_left (g := id), List.map_id]
          intro m hm
          refine if_neg ?_
          rintro rfl
          exact hk (List.of_mem_zip hm).1
        simp [hothers]
      · simp [List.idxOf_cons_ne _ hkey, ih hrest, hkey]

theorem Record.members_mapValue (r : Record) (key : String) (f : Document → Document)
    (d : Document) :
    r.members (r.mapValue key f d) =
      (r.members d).map fun m => if m.1 = key then (m.1, f m.2) else m := by
  cases d with
  | array items => exact zip_modify r.nodup_keys items key f
  | _ => rfl

/-! ### Decoding without the undeclared keys -/

theorem record_mapValue {σ α : Type} {r : Record} {empty : σ}
    {put : σ → String → Document → Decoded σ} {finish : (String → Problem) → σ → Decoded α}
    {key : String} {f : Document → Document} (hput : ∀ s d, put s key (f d) = put s key d)
    (d : Document) :
    record r empty put finish (r.mapValue key f d) = record r empty put finish d := by
  have hstep (s : σ) (m : String × Document) :
      put s (if m.1 = key then (m.1, f m.2) else m).1 (if m.1 = key then (m.1, f m.2) else m).2 =
        put s m.1 m.2 := by
    by_cases hkey : m.1 = key
    · simp only [if_pos hkey]
      rw [hkey, hput]
    · simp only [if_neg hkey]
  have hsame (members : List (String × Document)) :
      (members.map fun m => if m.1 = key then (m.1, f m.2) else m).foldlM
        (fun s m => put s m.1 m.2) empty = members.foldlM (fun s m => put s m.1 m.2) empty := by
    simp only [List.foldlM_map, hstep]
  cases d with
  | object members =>
    simp only [Record.mapValue, record, hsame]
  | array items =>
    have hmembers := r.members_mapValue key f (.array items)
    simp only [Record.members, Record.mapValue] at hmembers
    simp only [Record.mapValue, record, hmembers, hsame, List.length_modify]
  | _ => rfl

def withKey (key : String) (members : List (String × Document)) : List (String × Document) :=
  members.filter fun m => m.1 = key

theorem withKey_cons_self (key : String) (d : Document) (rest : List (String × Document)) :
    withKey key ((key, d) :: rest) = (key, d) :: withKey key rest := by
  simp [withKey]

theorem withKey_cons_of_ne {key : String} {m : String × Document} (h : m.1 ≠ key)
    (rest : List (String × Document)) : withKey key (m :: rest) = withKey key rest := by
  simp [withKey, h]

theorem withKey_filter {key : String} {p : String → Bool} (hkey : p key = true)
    (members : List (String × Document)) :
    withKey key (members.filter fun m => p m.1) = withKey key members := by
  rw [withKey, List.filter_filter]
  refine List.filter_congr fun m _ => ?_
  by_cases h : m.1 = key
  · simp [h, hkey]
  · simp [h]

theorem splitKind_eq (kind : Option (IdSource Unit)) (members : List (String × Document)) :
    splitKind kind members =
      ((withKey "kind" members).foldlM (fun k m => fill "kind" k idKind m.2) kind).map
        (·, members.filter fun m => m.1 ≠ "kind") := by
  induction members generalizing kind with
  | nil => rfl
  | cons m rest ih =>
    obtain ⟨key, value⟩ := m
    by_cases hkey : key = "kind"
    · subst hkey
      rw [withKey_cons_self, List.foldlM_cons]
      cases hfill : fill "kind" kind idKind value with
      | error e =>
        simp only [splitKind, if_true, hfill]
        rfl
      | ok kind =>
        simp only [splitKind, if_true, hfill]
        exact ih kind
    · rw [withKey_cons_of_ne hkey]
      simp only [splitKind, if_neg hkey, ih]
      cases (withKey "kind" rest).foldlM (fun k m => fill "kind" k idKind m.2) kind with
      | error e => rfl
      | ok kind => simp [hkey]; rfl

theorem sequenceTable_eq (table : Option String) (members : List (String × Document)) :
    sequenceTable table members =
      (withKey "table" members).foldlM (fun t m => fill "table" t string m.2) table >>=
        required .missingKey "table" := by
  induction members generalizing table with
  | nil => rfl
  | cons m rest ih =>
    obtain ⟨key, value⟩ := m
    by_cases hkey : key = "table"
    · subst hkey
      rw [withKey_cons_self, List.foldlM_cons]
      cases hfill : fill "table" table string value with
      | error e =>
        simp only [sequenceTable, if_true, hfill]
        rfl
      | ok table =>
        simp only [sequenceTable, if_true, hfill]
        exact ih table
    · rw [withKey_cons_of_ne hkey]
      simp only [sequenceTable, if_neg hkey, ih]

theorem idSource_object (members : List (String × Document)) :
    idSource (.object members) =
      (withKey "kind" members).foldlM (fun k m => fill "kind" k idKind m.2) none >>= fun kind =>
        required .missingKey "kind" kind >>= fun kind =>
          match kind with
          | .autoIncrement => .ok .autoIncrement
          | .sequence _ =>
            .sequence <$> ((withKey "table" members).foldlM
              (fun t m => fill "table" t string m.2) none >>= required .missingKey "table") := by
  have htable : withKey "table" (members.filter fun m => m.1 ≠ "kind") = withKey "table" members :=
    withKey_filter (p := fun key => key ≠ "kind") (by decide) members
  rw [idSource, splitKind_eq]
  cases (withKey "kind" members).foldlM (fun k m => fill "kind" k idKind m.2) none with
  | error e => rfl
  | ok kind =>
    cases kind with
    | none => rfl
    | some kind =>
      cases kind with
      | autoIncrement => rfl
      | sequence u =>
        rw [← htable]
        simp only [required, sequenceTable_eq]
        rfl

theorem foldlM_fill_none {α : Type} {key : String} {decode : Document → Decoded α}
    {members : List (String × Document)} {slot : Option α}
    (h : members.foldlM (fun s m => fill key s decode m.2) none = .ok slot) :
    members = [] ∧ slot = none ∨
      ∃ m a, members = [m] ∧ decode m.2 = .ok a ∧ slot = some a := by
  cases members with
  | nil => exact .inl ⟨rfl, by cases h; rfl⟩
  | cons m rest =>
    rw [List.foldlM_cons] at h
    obtain ⟨s, hs, h⟩ := exists_of_bind_ok h
    obtain ⟨a, ha, rfl⟩ : ∃ a, decode m.2 = .ok a ∧ s = some a := by
      cases hd : decode m.2 with
      | error e => simp [fill, hd] at hs
      | ok a => exact ⟨a, rfl, by simpa [fill, hd] using hs.symm⟩
    cases rest with
    | nil => exact .inr ⟨m, a, rfl, ha, by cases h; rfl⟩
    | cons m' rest =>
      rw [List.foldlM_cons] at h
      obtain ⟨s', hs', -⟩ := exists_of_bind_ok h
      cases hs'

theorem mem_withKey {m : String × Document} {members : List (String × Document)}
    (h : m ∈ members) : m ∈ withKey m.1 members :=
  List.mem_filter.2 ⟨h, by simp⟩

theorem lookup_eq_withKey (key : String) (members : List (String × Document)) :
    members.lookup key = (withKey key members).head?.map (·.2) := by
  induction members with
  | nil => rfl
  | cons m rest ih =>
    obtain ⟨k, value⟩ := m
    by_cases hkey : k = key
    · subst hkey
      rw [withKey_cons_self, List.lookup_cons_self]
      rfl
    · have hother : (key == k) = false := beq_false_of_ne (Ne.symm hkey)
      rw [withKey_cons_of_ne hkey, ← ih, List.lookup_cons, hother]

theorem mem_idKeys_iff {key : String} {members : List (String × Document)} :
    key ∈ idKeys members ↔
      key = "kind" ∨ key = "table" ∧ members.lookup "kind" = some (.string "sequence") := by
  unfold idKeys
  split
  · simp_all
  · rename_i hother
    simp only [List.mem_singleton]
    exact ⟨.inl, fun h => h.resolve_right fun h => hother h.2⟩

theorem kind_mem_idKeys (members : List (String × Document)) : "kind" ∈ idKeys members :=
  mem_idKeys_iff.2 (.inl rfl)

theorem idKeys_filter {p : String → Bool} (hkind : p "kind" = true)
    (members : List (String × Document)) :
    idKeys (members.filter fun m => p m.1) = idKeys members := by
  simp only [idKeys, lookup_eq_withKey, withKey_filter hkind]

theorem isAtom_of_idKind {d : Document} {kind : IdSource Unit} (h : idKind d = .ok kind) :
    IsAtom d := by
  cases d with
  | string s => trivial
  | _ => cases h

theorem isAtom_of_string {d : Document} {s : String} (h : string d = .ok s) : IsAtom d := by
  cases d with
  | string s => trivial
  | _ => cases h

theorem idKind_eq_sequence_iff {d : Document} {u : Unit} :
    idKind d = .ok (.sequence u) ↔ d = .string "sequence" := by
  constructor
  · intro h
    unfold idKind at h
    split at h <;> cases h
    rfl
  · rintro rfl
    rfl

theorem foldlM_kind_eq_sequence {members : List (String × Document)} {kind : Option (IdSource Unit)}
    (h : (withKey "kind" members).foldlM (fun k m => fill "kind" k idKind m.2) none = .ok kind) :
    kind = some (.sequence ()) ↔ members.lookup "kind" = some (.string "sequence") := by
  rw [lookup_eq_withKey]
  obtain ⟨hm, rfl⟩ | ⟨m, a, hm, ha, rfl⟩ := foldlM_fill_none h
  · simp [hm]
  · rw [hm, Option.some_inj]
    constructor
    · rintro rfl
      simp [idKind_eq_sequence_iff.1 ha]
    · intro hlookup
      have hm2 : m.2 = .string "sequence" := Option.some.inj hlookup
      rw [hm2] at ha
      exact (Except.ok.inj ha).symm

theorem idSource_pruneIds (d : Document) : idSource (pruneIds d) = idSource d := by
  cases d with
  | object members =>
    rw [pruneIds, idSource_object, idSource_object,
      withKey_filter (p := fun key => key ∈ idKeys members) (by simp [kind_mem_idKeys])]
    cases hfold : (withKey "kind" members).foldlM (fun k m => fill "kind" k idKind m.2) none with
    | error e => rfl
    | ok kind =>
      cases kind with
      | none => rfl
      | some kind =>
        cases kind with
        | autoIncrement => rfl
        | sequence u =>
          have htable : "table" ∈ idKeys members :=
            mem_idKeys_iff.2 (.inr ⟨rfl, (foldlM_kind_eq_sequence hfold).1 rfl⟩)
          rw [withKey_filter (p := fun key => key ∈ idKeys members) (by simp [htable])]
  | _ => rfl

theorem mapping_prune (d : Document) :
    mapping (Record.mapValue .mapping "ids" pruneIds d) = mapping d :=
  record_mapValue (fun s d => by simp only [MappingSlots.put, fill, idSource_pruneIds]) d

/-- What an undeclared key holds makes no difference to the configuration. -/
theorem config_prune (d : Document) : config (prune d) = config d :=
  record_mapValue (fun s d => by simp only [ConfigSlots.put, fill, mapping_prune]) d

/-! ### Decoded documents hold declared keys -/

theorem isAtom_of_foldlM_fill {α : Type} {decode : Document → Decoded α}
    {members : List (String × Document)} {slot : Option α} {m : String × Document}
    (hdecode : ∀ d a, decode d = .ok a → IsAtom d)
    (h : (withKey m.1 members).foldlM (fun s m' => fill m.1 s decode m'.2) none = .ok slot)
    (hm : m ∈ members) : IsAtom m.2 := by
  have hmem := mem_withKey hm
  obtain ⟨hnil, -⟩ | ⟨m', a, hsingle, ha, -⟩ := foldlM_fill_none h
  · rw [hnil] at hmem
    cases hmem
  · rw [hsingle] at hmem
    obtain rfl := List.mem_singleton.1 hmem
    exact hdecode _ _ ha

theorem declared_pruneIds {d : Document} {ids : IdSource String} (h : idSource d = .ok ids) :
    Declared .idSource (pruneIds d) := by
  cases d with
  | object members =>
    have hkeys : idKeys (members.filter fun m => m.1 ∈ idKeys members) = idKeys members :=
      idKeys_filter (p := fun key => key ∈ idKeys members) (by simp [kind_mem_idKeys]) members
    refine .idSource (fun m hm => ?_) fun m hm => .atom ?_
    · rw [hkeys]
      exact of_decide_eq_true (List.mem_filter.1 hm).2
    · obtain ⟨hmem, hdeclared⟩ := List.mem_filter.1 hm
      have hdeclared : m.1 ∈ idKeys members := of_decide_eq_true hdeclared
      rw [idSource_object] at h
      obtain ⟨kind, hkind, h⟩ := exists_of_bind_ok h
      rcases mem_idKeys_iff.1 hdeclared with hkey | ⟨hkey, hsequence⟩
      · rw [← hkey] at hkind
        exact isAtom_of_foldlM_fill (fun _ _ => isAtom_of_idKind) hkind hmem
      · obtain rfl := (foldlM_kind_eq_sequence hkind).2 hsequence
        obtain ⟨_, ⟨⟩, h⟩ := exists_of_bind_ok h
        obtain ⟨table, htable, -⟩ := exists_of_bind_ok h
        obtain ⟨slot, hslot, -⟩ := exists_of_bind_ok htable
        rw [← hkey] at hslot
        exact isAtom_of_foldlM_fill (fun _ _ => isAtom_of_string) hslot hmem
  | array items =>
    cases items with
    | nil => cases h
    | cons d rest =>
      obtain ⟨kind, hkind, h⟩ := exists_of_bind_ok h
      refine .idItems (List.forall_mem_cons.2 ⟨.atom (isAtom_of_idKind hkind), ?_⟩)
      cases rest with
      | nil => simp
      | cons table rest =>
        cases kind with
        | autoIncrement => cases h
        | sequence u =>
          obtain ⟨s, hs, h⟩ := exists_of_bind_ok h
          cases rest with
          | nil => simpa using .atom (isAtom_of_string hs)
          | cons d rest => cases h
  | _ => exact .atom trivial

theorem put_of_foldlM {σ : Type} {put : σ → String → Document → Decoded σ}
    {members : List (String × Document)} {s slots : σ}
    (h : members.foldlM (fun s m => put s m.1 m.2) s = .ok slots) :
    ∀ m ∈ members, ∃ s s', put s m.1 m.2 = .ok s' := by
  induction members generalizing s with
  | nil => exact fun _ hm => absurd hm List.not_mem_nil
  | cons m rest ih =>
    rw [List.foldlM_cons] at h
    obtain ⟨s', hs', h⟩ := exists_of_bind_ok h
    exact List.forall_mem_cons.2 ⟨⟨s, s', hs'⟩, ih h⟩

theorem declared_of_record {σ α : Type} {r : Record} {empty : σ}
    {put : σ → String → Document → Decoded σ} {finish : (String → Problem) → σ → Decoded α} {a : α}
    {d : Document} (h : record r empty put finish d = .ok a)
    (hput : ∀ m ∈ r.members d, ∀ s s', put s m.1 m.2 = .ok s' →
      m.1 ∈ r.keys ∧ Declared (r.place m.1) m.2) : Declared (.record r) d := by
  cases d with
  | object members =>
    obtain ⟨slots, hslots, -⟩ := exists_of_bind_ok h
    have hmembers (m : String × Document) (hm : m ∈ members) :
        m.1 ∈ r.keys ∧ Declared (r.place m.1) m.2 := by
      obtain ⟨s, s', hs⟩ := put_of_foldlM hslots m hm
      exact hput m hm s s' hs
    exact .record (fun m hm => (hmembers m hm).1) fun m hm => (hmembers m hm).2
  | array items =>
    obtain ⟨slots, hslots, h⟩ := exists_of_bind_ok h
    obtain ⟨a', -, h⟩ := exists_of_bind_ok h
    refine .positions ?_ fun m hm => ?_
    · by_contra hlong
      simp [Nat.lt_of_not_le hlong] at h
      cases h
    · obtain ⟨s, s', hs⟩ := put_of_foldlM hslots m hm
      exact (hput m hm s s' hs).2
  | _ => cases h

theorem exists_of_fill {α β : Type} {key : String} {slot : Option α}
    {decode : Document → Decoded α} {d : Document} {f : Option α → β} {b : β}
    (h : (do return f (← fill key slot decode d)) = Except.ok (ε := Problem) b) :
    ∃ a, decode d = .ok a := by
  obtain ⟨o, ho, -⟩ := exists_of_bind_ok h
  cases slot with
  | some a => cases ho
  | none =>
    cases hd : decode d with
    | error e => simp [fill, hd] at ho
    | ok a => exact ⟨a, rfl⟩

theorem isAtom_of_orNull_string {d : Document} {s : Option String} (h : orNull string d = .ok s) :
    IsAtom d := by
  cases d with
  | array items => cases h
  | object members => cases h
  | _ => trivial

theorem isAtom_of_unsigned {d : Document} {n : Nat} (h : unsigned d = .ok n) : IsAtom d := by
  cases d with
  | integer n => trivial
  | _ => cases h

theorem isAtom_of_partitionKey {d : Document} {key : PartitionKey} (h : partitionKey d = .ok key) :
    IsAtom d := by
  cases d with
  | array items => cases h
  | object members => cases h
  | _ => trivial

theorem declared_of_columns {d : Document} {c : ColumnNames} (h : columns d = .ok c) :
    Declared (.record .columns) d := by
  refine declared_of_record h fun m _ s s' hs => ?_
  obtain ⟨key, value⟩ := m
  dsimp only at hs ⊢
  unfold ColumnSlots.put at hs
  split at hs
  case h_5 => cases hs
  all_goals
    obtain ⟨a, ha⟩ := exists_of_fill hs
    exact ⟨by decide, .atom (isAtom_of_string ha)⟩

theorem declared_of_field {d : Document} {f : FieldSpec} (h : field d = .ok f) :
    Declared (.record .field) d := by
  refine declared_of_record h fun m _ s s' hs => ?_
  obtain ⟨key, value⟩ := m
  dsimp only at hs ⊢
  unfold FieldSlots.put at hs
  split at hs
  · obtain ⟨a, ha⟩ := exists_of_fill hs
    exact ⟨by decide, .atom (isAtom_of_string ha)⟩
  · obtain ⟨a, ha⟩ := exists_of_fill hs
    exact ⟨by decide, .atom (isAtom_of_orNull_string ha)⟩
  · obtain ⟨a, ha⟩ := exists_of_fill hs
    exact ⟨by decide, .atom (isAtom_of_orNull_string ha)⟩
  · cases hs

theorem declared_of_partition {d : Document} {p : PartitionSpec} (h : partition d = .ok p) :
    Declared (.record .partition) d := by
  refine declared_of_record h fun m _ s s' hs => ?_
  obtain ⟨key, value⟩ := m
  dsimp only at hs ⊢
  unfold PartitionSlots.put at hs
  split at hs
  · obtain ⟨a, ha⟩ := exists_of_fill hs
    exact ⟨by decide, .atom (isAtom_of_string ha)⟩
  · obtain ⟨a, ha⟩ := exists_of_fill hs
    exact ⟨by decide, .atom (isAtom_of_partitionKey ha)⟩
  · cases hs

theorem declared_of_orNull_partition {d : Document} {p : Option PartitionSpec}
    (h : orNull partition d = .ok p) : Declared (.record .partition) d := by
  unfold orNull at h
  split at h
  · exact .atom trivial
  · obtain ⟨p, hp, -⟩ := exists_of_bind_ok h
    exact declared_of_partition hp

theorem exists_of_mem_mapM {ε α β : Type} {f : α → Except ε β} {l : List α} {bs : List β}
    (h : l.mapM f = .ok bs) : ∀ a ∈ l, ∃ b, f a = .ok b := by
  induction l generalizing bs with
  | nil => exact fun _ ha => absurd ha List.not_mem_nil
  | cons a rest ih =>
    rw [List.mapM_cons] at h
    obtain ⟨b, hb, h⟩ := exists_of_bind_ok h
    obtain ⟨bs', hrest, -⟩ := exists_of_bind_ok h
    exact List.forall_mem_cons.2 ⟨⟨b, hb⟩, ih hrest⟩

theorem declared_of_fields {d : Document} {fs : List FieldSpec} (h : listOf field d = .ok fs) :
    Declared .fields d := by
  cases d with
  | array items =>
    refine .fields fun d hd => ?_
    obtain ⟨f, hf⟩ := exists_of_mem_mapM h d hd
    exact declared_of_field hf
  | _ => cases h

theorem exists_of_mem_mapValue {r : Record} {key : String} {f : Document → Document}
    {d v : Document} (h : (key, v) ∈ r.members (r.mapValue key f d)) : ∃ v₀, v = f v₀ := by
  rw [Record.members_mapValue] at h
  obtain ⟨m, -, hm⟩ := List.mem_map.1 h
  split at hm
  · exact ⟨m.2, (congrArg Prod.snd hm).symm⟩
  · rename_i hne
    exact absurd (congrArg Prod.fst hm) hne

theorem declared_of_mapping {d : Document} {m : Mapping} (h : mapping d = .ok m) :
    Declared (.record .mapping) (Record.mapValue .mapping "ids" pruneIds d) := by
  rw [← mapping_prune] at h
  refine declared_of_record h fun m hm s s' hs => ?_
  obtain ⟨key, value⟩ := m
  dsimp only at hs ⊢
  unfold MappingSlots.put at hs
  split at hs
  · obtain ⟨a, ha⟩ := exists_of_fill hs
    exact ⟨by decide, .atom (isAtom_of_string ha)⟩
  · obtain ⟨a, ha⟩ := exists_of_fill hs
    exact ⟨by decide, declared_of_columns ha⟩
  · obtain ⟨a, ha⟩ := exists_of_fill hs
    exact ⟨by decide, declared_of_fields ha⟩
  · obtain ⟨a, ha⟩ := exists_of_fill hs
    exact ⟨by decide, .atom (isAtom_of_orNull_string ha)⟩
  · obtain ⟨a, ha⟩ := exists_of_fill hs
    exact ⟨by decide, declared_of_orNull_partition ha⟩
  · obtain ⟨a, ha⟩ := exists_of_fill hs
    obtain ⟨ids, rfl⟩ := exists_of_mem_mapValue hm
    rw [idSource_pruneIds] at ha
    exact ⟨by decide, declared_pruneIds ha⟩
  · cases hs

/-- A document that decodes holds declared keys alone once its id source is pruned. -/
theorem declared_of_config {d : Document} {c : Config} (h : config d = .ok c) :
    Declared (.record .config) (prune d) := by
  rw [← config_prune] at h
  refine declared_of_record h fun m hm s s' hs => ?_
  obtain ⟨key, value⟩ := m
  dsimp only at hs ⊢
  unfold ConfigSlots.put at hs
  split at hs
  · obtain ⟨a, ha⟩ := exists_of_fill hs
    obtain ⟨schema, rfl⟩ := exists_of_mem_mapValue hm
    rw [mapping_prune] at ha
    exact ⟨by decide, declared_of_mapping ha⟩
  · obtain ⟨a, ha⟩ := exists_of_fill hs
    exact ⟨by decide, .atom (isAtom_of_unsigned ha)⟩
  · cases hs

/-! ### Documents without undeclared keys -/

theorem mapValue_of_isAtom {r : Record} {key : String} {f : Document → Document} {d : Document}
    (h : IsAtom d) : r.mapValue key f d = d := by
  cases d with
  | array items => exact h.elim
  | object members => exact h.elim
  | _ => rfl

theorem mapValue_eq_self {r : Record} {key : String} {f : Document → Document} {d : Document}
    (h : Declared (.record r) d) (hf : ∀ v, Declared (r.place key) v → f v = v) :
    r.mapValue key f d = d := by
  cases h with
  | atom h => exact mapValue_of_isAtom h
  | @record _ members hkeys hvalues =>
    have hsame : (members.map fun m => if m.1 = key then (m.1, f m.2) else m) = members := by
      rw [List.map_congr_left (g := id), List.map_id]
      intro m hm
      by_cases hkey : m.1 = key
      · rw [if_pos hkey, hf m.2 (hkey ▸ hvalues m hm)]
        rfl
      · exact if_neg hkey
    rw [Record.mapValue, hsame]
  | @positions _ items hlength hvalues =>
    have hsame : items.modify (r.keys.idxOf key) f = items := by
      refine List.ext_getElem? fun i => ?_
      rw [List.getElem?_modify]
      split
      · subst i
        cases hitem : items[r.keys.idxOf key]? with
        | none => rfl
        | some v =>
          obtain ⟨hi, rfl⟩ := List.getElem?_eq_some_iff.1 hitem
          have hk : r.keys.idxOf key < r.keys.length := hi.trans_le hlength
          have hmem : (key, items[r.keys.idxOf key]) ∈ r.keys.zip items :=
            List.mem_iff_getElem.2 ⟨r.keys.idxOf key, by simp [hk, hi], by simp⟩
          simpa using hf _ (hvalues _ hmem)
      · simp
    rw [Record.mapValue, hsame]

theorem pruneIds_eq_self {d : Document} (h : Declared .idSource d) : pruneIds d = d := by
  cases h with
  | atom h =>
    cases d with
    | object members => exact h.elim
    | _ => rfl
  | idSource hkeys hvalues =>
    rw [pruneIds, List.filter_eq_self.2 fun m hm => decide_eq_true (hkeys m hm)]
  | idItems h => rfl

theorem prune_eq_self {d : Document} (h : Declared (.record .config) d) : prune d = d :=
  mapValue_eq_self h fun _ hv => mapValue_eq_self hv fun _ hids => pruneIds_eq_self hids

end Decode

namespace Config

/-- A text that is read has no undeclared key but beside the kind of its id source; what stands
there is dropped, and so every key is declared just if nothing is dropped. -/
theorem undeclared_keys_are_dropped {text : String} {c : Config} (h : ofText text = .ok c) :
    ∃ d, Document.parse text = some d ∧ Decode.Declared (.record .config) (Decode.prune d) ∧
      Decode.config (Decode.prune d) = .ok c ∧
      (Decode.Declared (.record .config) d ↔ Decode.prune d = d) := by
  unfold ofText at h
  split at h
  · cases h
  rename_i d hparse
  split at h
  · cases h
  rename_i c' hdecode
  split at h
  · cases h
  obtain rfl := Except.ok.inj h
  have hpruned := Decode.declared_of_config hdecode
  refine ⟨d, hparse, hpruned, (Decode.config_prune d).trans hdecode, Decode.prune_eq_self, ?_⟩
  intro hsame
  rwa [hsame] at hpruned

/-- A sequence that is meant to start at 100. -/
def countingDocument : Document := .object [
  ("schema", .object [
    ("table", .string "n"),
    ("ids", .object [("kind", .string "sequence"), ("table", .string "s"),
      ("start", .integer 100)])])]

def countingText : String :=
  "\x7b\"schema\":\x7b\"table\":\"n\",\"ids\":\x7b\"kind\":\"sequence\"," ++
    "\"table\":\"s\",\"start\":100\x7d\x7d\x7d"

def counting : Config where
  mapping := { table := "n", ids := .sequence "s" }

open Document in
theorem parse_countingText : Document.parse countingText = some countingDocument := by
  have hplain (s : String) (h : ∀ c ∈ s.toList, 0x20 ≤ c.toNat ∧ c ≠ '"' ∧ c ≠ '\\') :=
    spellsString_plain h
  have hids := SpellsMembers.more isGap_nil (hplain "kind" (by simp)) isGap_nil isGap_nil
    (.string (hplain "sequence" (by simp))) isGap_nil
    (.more isGap_nil (hplain "table" (by simp)) isGap_nil isGap_nil
      (.string (hplain "s" (by simp))) isGap_nil
      (.last isGap_nil (hplain "start" (by simp)) isGap_nil isGap_nil (.integer 100) isGap_nil))
  have hmapping := SpellsMembers.more isGap_nil (hplain "table" (by simp)) isGap_nil isGap_nil
    (.string (hplain "n" (by simp))) isGap_nil
    (.last isGap_nil (hplain "ids" (by simp)) isGap_nil isGap_nil (.object hids) isGap_nil)
  have hconfig := SpellsMembers.last isGap_nil (hplain "schema" (by simp)) isGap_nil isGap_nil
    (.object hmapping) isGap_nil
  have htext : countingDocument.IsText countingText :=
    ⟨[], _, [], isGap_nil, .object hconfig, isGap_nil, by cbv⟩
  have hreadable : Readable (124 + 3) countingDocument := by
    refine .object (List.forall_mem_singleton.2 (.object ?_))
    refine List.forall_mem_cons.2 ⟨.string, List.forall_mem_singleton.2 (.object ?_)⟩
    refine List.forall_mem_cons.2 ⟨.string, List.forall_mem_cons.2 ⟨.string, ?_⟩⟩
    exact List.forall_mem_singleton.2 (.integer (by decide) (by decide))
  exact parse_of_isText htext hreadable

theorem ofText_countingText : ofText countingText = .ok counting := by
  have hdecode : Decode.config countingDocument = .ok counting := rfl
  have hvalid : counting.mapping.validate =
      .ok ⟨⟨"n"⟩, ⟨"id"⟩, ⟨"l"⟩, ⟨"r"⟩, ⟨"parent"⟩, none, [], .left, .sequence ⟨"s"⟩⟩ := by
    decide +kernel
  rw [ofText, parse_countingText]
  simp only [hdecode, hvalid]

theorem undeclared_keys_are_dropped_counting :
    ofText countingText = .ok counting ∧
      ∃ d, Document.parse countingText = some d ∧
        Decode.Declared (.record .config) (Decode.prune d) ∧
        Decode.config (Decode.prune d) = .ok counting ∧
        (Decode.Declared (.record .config) d ↔ Decode.prune d = d) :=
  ⟨ofText_countingText, undeclared_keys_are_dropped ofText_countingText⟩

/-- The start of the sequence is read, and is no key of an id source. -/
theorem read_text_has_undeclared_key :
    ∃ d, Document.parse countingText = some d ∧ ofText countingText = .ok counting ∧
      ¬Decode.Declared (.record .config) d := by
  refine ⟨countingDocument, parse_countingText, ofText_countingText, fun h => ?_⟩
  have hpruned : Decode.prune countingDocument = .object [("schema", .object [
      ("table", .string "n"),
      ("ids", .object [("kind", .string "sequence"), ("table", .string "s")])])] := rfl
  have hsame := Decode.prune_eq_self h
  rw [hpruned] at hsame
  simp [countingDocument] at hsame

end Config

end NestedSet
