/-!
# Ordered entries

Dictionaries, properties and keyword arguments keep their entries in the order in which the keys
were first given. They are lists of pairs with distinct keys; looking a key up is `List.lookup`.
Giving a key again replaces its value where it stands.
-/

namespace ComponentMarkup

/-- Keys with their values, in order. -/
abbrev Entries (κ ν : Type) := List (κ × ν)

namespace Entries

variable {κ ν : Type} [BEq κ]

/-- Give a key a value, at its old place or else at the end. -/
def insert (key : κ) (value : ν) : Entries κ ν → Entries κ ν
  | [] => [(key, value)]
  | (k, v) :: rest => if k == key then (k, value) :: rest else (k, v) :: insert key value rest

def contains (entries : Entries κ ν) (key : κ) : Bool :=
  (entries.lookup key).isSome

/-- Give all keys of `more` their values, one after another. -/
def insertAll (entries more : Entries κ ν) : Entries κ ν :=
  more.foldl (fun entries (k, v) => insert k v entries) entries

/-- Entries from a list of pairs, where a later pair replaces an earlier one with the same key. -/
def ofPairs (pairs : List (κ × ν)) : Entries κ ν :=
  insertAll [] pairs

def erase (entries : Entries κ ν) (key : κ) : Entries κ ν :=
  entries.filter fun (k, _) => !(k == key)

variable [LawfulBEq κ]

theorem lookup_insert_self (key : κ) (value : ν) (entries : Entries κ ν) :
    List.lookup key (insert key value entries) = some value := by
  induction entries with
  | nil => simp [insert]
  | cons e rest ih =>
    obtain ⟨k, v⟩ := e
    by_cases h : k = key
    · subst h; simp [insert]
    · have hne : (key == k) = false := beq_false_of_ne fun hk => h hk.symm
      simp [insert, h, List.lookup_cons, hne, ih]

theorem lookup_insert_of_ne {key other : κ} (h : other ≠ key) (value : ν) (entries : Entries κ ν) :
    List.lookup other (insert key value entries) = List.lookup other entries := by
  have hne : (other == key) = false := beq_false_of_ne h
  induction entries with
  | nil => simp [insert, List.lookup_cons, hne]
  | cons e rest ih =>
    obtain ⟨k, v⟩ := e
    by_cases hk : k = key
    · subst hk; simp [insert, List.lookup_cons, hne]
    · simp [insert, hk, List.lookup_cons, ih]

theorem mem_of_lookup {key : κ} {value : ν} {entries : Entries κ ν}
    (h : List.lookup key entries = some value) : (key, value) ∈ entries := by
  obtain ⟨before, after, hsplit, -⟩ := List.lookup_eq_some_iff.mp h
  rw [hsplit]
  exact List.mem_append_right _ List.mem_cons_self

end Entries

end ComponentMarkup
