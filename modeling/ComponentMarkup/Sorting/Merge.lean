import ComponentMarkup.Sorting.Insertion

/-!
# Merging

Two sorted lists are merged into one. Of two equal items the one on the left comes first, whichever
end the merge starts from: from the front, from the back, or from both ends at once. A merge from the
back is one from the front of the reversed lists, with sides and order exchanged.
-/

namespace ComponentMarkup.Sorting

variable {ε α : Type}

/-- A merge from one end: what is left of both lists, and what is merged, with its last item first. -/
structure Merging (α : Type) where
  left : List α
  right : List α
  merged : List α := []

namespace Merging

/-- Merge the next item, unless a list is used up. -/
def step (less : Less ε α) (m : Merging α) : Sorter ε (Merging α) :=
  match m.left, m.right with
  | x :: left, y :: right => do
    if ← less y x then return { m with right, merged := y :: m.merged }
    else return { m with left, merged := x :: m.merged }
  | _, _ => return m

def steps (less : Less ε α) : Nat → Merging α → Sorter ε (Merging α)
  | 0, m => return m
  | n + 1, m => do steps less n (← m.step less)

/-- Merge an item without a comparison. -/
def take (fromLeft : Bool) (m : Merging α) : Merging α :=
  if fromLeft then { m with left := m.left.tail, merged := m.left.take 1 ++ m.merged }
  else { m with right := m.right.tail, merged := m.right.take 1 ++ m.merged }

end Merging

/-- Merge two lists from the front. -/
def mergeFront (less : Less ε α) (left right : List α) : Sorter ε (List α) := do
  let m ← Merging.steps less (left.length + right.length) { left, right }
  return m.merged.reverse ++ (m.left ++ m.right)

/-- Merge two lists, starting from the end at which the shorter one lies. -/
def merge (less : Less ε α) (left right : List α) : Sorter ε (List α) := do
  if left.length ≤ right.length then mergeFront less left right
  else return (← mergeFront (fun a b => less b a) right.reverse left.reverse).reverse

/-- Merge at both ends in turn, a number of times. -/
def mergeEnds (less : Less ε α) : Nat → Merging α → Merging α → Sorter ε (Merging α × Merging α)
  | 0, front, back => return (front, back)
  | n + 1, front, back => do
    let front ← front.step less
    let back ← back.step fun a b => less b a
    mergeEnds less n front back

/-- Merge from both ends a list with another that has as many items, or one more. No list is used up
before the ends meet, so there is always something to compare. Of an odd number of items one is left
in the middle. The ends meet at the same place of both lists, unless the answers contradict one
another. -/
def mergeInward (less : Less ε α) (left right : List α) : Sorter ε (List α) := do
  let half := left.length
  let (front, back) ← mergeEnds less half { left, right }
    { left := right.reverse, right := left.reverse }
  let front :=
    if half = right.length then front else front.take (half < front.left.length + back.right.length)
  if front.left.length + back.right.length = half ∧
      front.right.length + back.left.length = right.length then
    return front.merged.reverse ++ back.merged
  else failure

end ComponentMarkup.Sorting
