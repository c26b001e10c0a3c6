/-!
# Entries by name

A list of named values in a fixed order. Putting a value under a name changes
it in its place, or adds it at the end if the name is new.
-/

set_option autoImplicit false

namespace NestedSet

abbrev Entries (α : Type) := List (String × α)

namespace Entries

variable {α : Type}

def put (name : String) (value : α) : Entries α → Entries α
  | [] => [(name, value)]
  | (n, v) :: rest => if n = name then (name, value) :: rest else (n, v) :: put name value rest

theorem lookup_put_self (name : String) (value : α) (entries : Entries α) :
    (put name value entries).lookup name = some value := by
  induction entries with
  | nil => simp [put]
  | cons e rest ih =>
    obtain ⟨n, v⟩ := e
    by_cases h : n = name
    · simp [put, h]
    · have h' : (name == n) = false := by simpa using fun e => h e.symm
      simp [put, h, List.lookup_cons, h', ih]

theorem lookup_put_of_ne {name other : String} (h : other ≠ name) (value : α)
    (entries : Entries α) : (put name value entries).lookup other = entries.lookup other := by
  have h' : (other == name) = false := by simpa using h
  induction entries with
  | nil => simp [put, List.lookup_cons, h']
  | cons e rest ih =>
    obtain ⟨n, v⟩ := e
    by_cases hn : n = name
    · subst hn
      simp [put, List.lookup_cons, h']
    · by_cases ho : other == n <;> simp [put, hn, List.lookup_cons, ho, ih]

end Entries

end NestedSet
