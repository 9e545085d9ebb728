import ComponentMarkup.Sorting.Merge

/-!
# Sorting a block

A block is a list of at most 32 items. Each half of it is sorted by insertion, after a start of four
items with the fewest comparisons, and the halves are merged from both ends.
-/

namespace ComponentMarkup.Sorting

variable {ε α : Type}

/-- The most items of a block. -/
def blockSize : Nat := 32

/-- Two sorted pairs in ascending order. The least item is the least of one of them and the greatest
the greatest of one of them, which leaves two to compare. -/
def joinPairs (less : Less ε α) (a b c d : α) : Sorter ε (List α) := do
  let leastRight ← less c a
  let greatestLeft ← less d b
  let (least, x, y, greatest) :=
    match leastRight, greatestLeft with
    | false, false => (a, b, c, d)
    | false, true => (a, c, d, b)
    | true, false => (c, a, b, d)
    | true, true => (c, a, d, b)
  if ← less y x then return [least, y, x, greatest]
  else return [least, x, y, greatest]

/-- Four items in ascending order. -/
def sortFour (less : Less ε α) (a b c d : α) : Sorter ε (List α) := do
  let swapFirst ← less b a
  let swapSecond ← less d c
  let (a, b) := if swapFirst then (b, a) else (a, b)
  let (c, d) := if swapSecond then (d, c) else (c, d)
  joinPairs less a b c d

/-- The first four items in ascending order, and the others as they are. -/
def sortStart (less : Less ε α) : List α → Sorter ε (List α × List α)
  | a :: b :: c :: d :: rest => do return (← sortFour less a b c d, rest)
  | items => return ([], items)

def sortBlock (less : Less ε α) (items : List α) : Sorter ε (List α) := do
  let (left, right) := items.splitAt (items.length / 2)
  if 8 ≤ items.length then
    let (leftStart, left) ← sortStart less left
    let (rightStart, right) ← sortStart less right
    let left ← insertAll less leftStart left
    let right ← insertAll less rightStart right
    mergeInward less left right
  else
    let left ← insertionSort less left
    let right ← insertionSort less right
    mergeInward less left right

end ComponentMarkup.Sorting
