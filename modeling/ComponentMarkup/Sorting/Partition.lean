import ComponentMarkup.Sorting.Runs

/-!
# Sorting by partition

An item is chosen as the *pivot*. The items less than it go to the left and the others to the right,
each side in the order it had, and both sides are sorted in the same way. The right side of a pivot
has that pivot as its *floor*: none of its items is less.

If no item is less than the pivot, as is certain of a pivot that equals the floor, the items equal
to it are split off instead, and need no further sorting.

Sides of a block's size are sorted as blocks. The choice of a pivot is a guess. A bound on the
number of partitions inside one another keeps bad guesses from adding up, and past it the items are
sorted by runs.
-/

namespace ComponentMarkup.Sorting

variable {ε α : Type}

/-! ## The pivot -/

/-- Compare the items at two places. -/
def lessAt (less : Less ε α) (items : Array α) (i j : Nat) : Sorter ε Bool :=
  match items[i]?, items[j]? with
  | some x, some y => less x y
  | _, _ => return false

/-- Which of three places holds the item between the two others. -/
def medianPlace (less : Less ε α) (items : Array α) (a b c : Nat) : Sorter ε Nat := do
  let belowB ← lessAt less items a b
  let belowC ← lessAt less items a c
  if belowB == belowC then
    -- The item at `a` is an extreme: the median is the nearer of the others.
    let between ← lessAt less items b c
    return if between == belowB then b else c
  else return a

/-- A place in a stretch whose item is likely to be near the middle: the median of three such places
in eighths of the stretch. -/
def pivotPlace (less : Less ε α) (items : Array α) (start size : Nat) : Sorter ε Nat :=
  if 8 ≤ size then do
    let eighth := size / 8
    let a ← pivotPlace less items start eighth
    let b ← pivotPlace less items (start + 4 * eighth) eighth
    let c ← pivotPlace less items (start + 7 * eighth) eighth
    medianPlace less items a b c
  else return start
termination_by size

/-- A pivot is not above the floor. -/
def atFloor (less : Less ε α) : Option α → α → Sorter ε Bool
  | some floor, pivot => do return !(← less floor pivot)
  | none, _ => return false

/-! ## The parts -/

/-- Add to two parts the items that pass a test and those that fail it. The parts are kept with
their last items first. -/
def splitBy (test : α → Sorter ε Bool) (parts : List α × List α) (items : List α) :
    Sorter ε (List α × List α) :=
  items.foldlM (fun (passed, failed) item => do
    return if ← test item then (item :: passed, failed) else (passed, item :: failed)) parts

/-- The items less than the pivot, and the pivot among the others. -/
def splitBelow (less : Less ε α) (before : List α) (pivot : α) (after : List α) :
    Sorter ε (List α × List α) := do
  let (below, others) ← splitBy (fun item => less item pivot) ([], []) before
  let (below, others) ← splitBy (fun item => less item pivot) (below, pivot :: others) after
  return (below.reverse, others.reverse)

/-- The pivot among the items that it is not less than, and the others. -/
def splitUpTo (less : Less ε α) (before : List α) (pivot : α) (after : List α) :
    Sorter ε (List α × List α) := do
  let (above, upTo) ← splitBy (fun item => less pivot item) ([], []) before
  let (above, upTo) ← splitBy (fun item => less pivot item) (above, pivot :: upTo) after
  return (upTo.reverse, above.reverse)

/-- The items less than the pivot and the others, if any item is less. None is if the pivot equals
the floor. -/
def splitProper (less : Less ε α) (floor : Option α) (before : List α) (pivot : α) (after : List α) :
    Sorter ε (Option (List α × List α)) := do
  if ← atFloor less floor pivot then return none
  else
    let (below, others) ← splitBelow less before pivot after
    return if below.isEmpty then none else some (below, others)

/-! ## The sort -/

/-- Items in ascending order, with at most the given number of partitions inside one another. If
there is a `floor`, the items are known not to be less than it. -/
def partitionSort (less : Less ε α) : Nat → Option α → List α → Sorter ε (List α)
  | 0, _, items =>
    if items.length ≤ blockSize then sortBlock less items
    else runSort less true (sortBlock less) items
  | limit + 1, floor, items =>
    if items.length ≤ blockSize then sortBlock less items
    else do
      let place ← pivotPlace less items.toArray 0 items.length
      match items.splitAt place with
      | (_, []) => sortBlock less items
      | (before, pivot :: after) =>
        match ← splitProper less floor before pivot after with
        | some (below, others) =>
          let others ← partitionSort less limit (some pivot) others
          let below ← partitionSort less limit floor below
          return below ++ others
        | none =>
          let (equal, above) ← splitUpTo less before pivot after
          let above ← partitionSort less limit none above
          return equal ++ above

end ComponentMarkup.Sorting
