/-!
# Sorting by insertion

Items are sorted with a comparison that may fail, for there are items without an order between them.
All sorting functions are stable and ask in a fixed order for the comparisons they need. A failure
does not end a sort: the items in question count as equal, and the first failure is kept on record.
If the answers contradict one another, the items may end up in any order, and a sort that finds out
gives up.

In a sort by insertion each item moves to the left past all neighbours it is less than.
-/

namespace ComponentMarkup.Sorting

/-- A sort in progress: it may give up, and keeps the first comparison that failed. -/
abbrev Sorter (ε : Type) := StateT (Option ε) Option

/-- A comparison: whether the first item is less than the second. -/
abbrev Less (ε α : Type) := α → α → Sorter ε Bool

variable {ε α : Type}

namespace Sorter

/-- An answer, or a failure to be put on record. -/
def ask : Except ε Bool → Sorter ε Bool
  | .ok answer => pure answer
  | .error e => do
    modify (·.or (some e))
    return false

/-- What comes of a sort, unless it gives up: its result, or the first failure on record. -/
def outcome (s : Sorter ε α) : Option (Except ε α) :=
  (s.run none).map fun (result, failure) => failure.elim (.ok result) .error

end Sorter

/-- Insert an item into a sorted list that is kept with its last item first. -/
def insertBack (less : Less ε α) (item : α) : List α → Sorter ε (List α)
  | [] => return [item]
  | last :: rest => do
    if ← less item last then return last :: (← insertBack less item rest)
    else return item :: last :: rest

/-- Insert further items into a sorted list, one after the other. -/
def insertAll (less : Less ε α) (sorted items : List α) : Sorter ε (List α) := do
  let backwards ← items.foldlM (fun sorted item => insertBack less item sorted) sorted.reverse
  return backwards.reverse

def insertionSort (less : Less ε α) (items : List α) : Sorter ε (List α) :=
  insertAll less [] items

end ComponentMarkup.Sorting
