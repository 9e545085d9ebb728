import ComponentMarkup.Sorting.Block

/-!
# Sorting by runs

A list is cut into runs, and neighbouring runs are joined until one is left. A stretch that is
sorted from the start makes a run if it is long enough. Where there is none, the sort either sorts a
block at once or takes some items as they are: an unsorted run, which is sorted when it meets a
sorted neighbour, while unsorted neighbours just become one.

Runs are joined in the order of a nearly balanced tree. The depth at which two neighbours are joined
is the number of leading binary digits that the middles of both have in common, as fractions of the
whole list.
-/

namespace ComponentMarkup.Sorting

variable {ε α : Type}

/-- A stretch of neighbouring items. -/
structure Run (α : Type) where
  items : List α
  /-- The items are known to be in order. -/
  sorted : Bool

/-! ## Cutting -/

/-- A rough square root: the mean of a power of two close to it and the quotient by that power. -/
def roughSqrt (n : Nat) : Nat :=
  let root := Nat.pow 2 ((1 + n.log2) / 2)
  (root + n / root) / 2

/-- The length from which a sorted stretch of a list of `n` items is worth a run. -/
def goodLength (n : Nat) : Nat :=
  if n ≤ 4096 then min (n - n / 2) 64 else roughSqrt n

/-- Extend a stretch, kept with its last item first, as far as its items ascend or descend. -/
def extendStretch (less : Less ε α) (descending : Bool) (last : α) (stretch : List α) :
    List α → Sorter ε (List α × List α)
  | [] => return (stretch, [])
  | item :: rest => do
    if (← less item last) == descending then
      extendStretch less descending item (item :: stretch) rest
    else return (stretch, item :: rest)

/-- The longest stretch at the start of a list that ascends or strictly descends, in ascending
order, and the other items. -/
def sortedStretch (less : Less ε α) : List α → Sorter ε (List α × List α)
  | first :: second :: rest => do
    let descending ← less second first
    let (stretch, rest) ← extendStretch less descending second [second, first] rest
    return (if descending then stretch else stretch.reverse, rest)
  | items => return (items, [])

/-- The run at the start of a list if no stretch there is good enough, and the other items. -/
def plainRun (less : Less ε α) (eager : Bool) (good : Nat) (items : List α) :
    Sorter ε (Run α × List α) := do
  if eager then
    let (block, rest) := items.splitAt blockSize
    return (⟨← sortBlock less block, true⟩, rest)
  else
    let (block, rest) := items.splitAt good
    return (⟨block, false⟩, rest)

/-- The run at the start of a list, and the other items. -/
def nextRun (less : Less ε α) (eager : Bool) (good : Nat) (items : List α) :
    Sorter ε (Run α × List α) := do
  if good ≤ items.length then
    let (stretch, rest) ← sortedStretch less items
    if good ≤ stretch.length then return (⟨stretch, true⟩, rest)
    else plainRun less eager good items
  else plainRun less eager good items

/-! ## Joining -/

/-- The number of leading zeros among the 64 binary digits of a number. -/
def leadingZeros (n : Nat) : Nat :=
  if n = 0 then 64 else 63 - n.log2

/-- The depth at which the stretches from `start` to `middle` and from `middle` to `stop` are joined
in a list of `total` items. Twice the middles of both are scaled to 63 binary digits. -/
def joinDepth (total start middle stop : Nat) : Nat :=
  let scale := (Nat.pow 2 62 + total - 1) / total
  leadingZeros (Nat.xor (scale * (start + middle)) (scale * (middle + stop)))

/-- The items of a run in order, where `settle` sorts an unsorted run. -/
def Run.settled (settle : List α → Sorter ε (List α)) (run : Run α) : Sorter ε (List α) :=
  if run.sorted then return run.items else settle run.items

/-- Two neighbouring runs as one. -/
def Run.join (less : Less ε α) (settle : List α → Sorter ε (List α)) (left right : Run α) :
    Sorter ε (Run α) := do
  if left.sorted || right.sorted then
    let leftItems ← left.settled settle
    let rightItems ← right.settled settle
    return ⟨← merge less leftItems rightItems, true⟩
  else return ⟨left.items ++ right.items, false⟩

/-- Join the last run with those waiting on its left, as long as they are to be joined at the given
depth or deeper. -/
def joinWaiting (join : Run α → Run α → Sorter ε (Run α)) (depth : Nat) (last : Run α) :
    List (Run α × Nat) → Sorter ε (Run α × List (Run α × Nat))
  | [] => return (last, [])
  | (run, runDepth) :: waiting =>
    if depth ≤ runDepth then do joinWaiting join depth (← join run last) waiting
    else return (last, (run, runDepth) :: waiting)

/-- Cut the other items into runs and join all of them. The last run ends after `position` items;
the runs waiting on its left, the nearest first, have the depth at which each is to be joined with
its right neighbour. The first argument bounds the number of runs to come. -/
def joinAll (next : List α → Sorter ε (Run α × List α))
    (join : Run α → Run α → Sorter ε (Run α)) (total : Nat) :
    Nat → Nat → Run α → List (Run α × Nat) → List α → Sorter ε (Run α)
  | count + 1, position, last, waiting, item :: rest => do
    let (run, rest) ← next (item :: rest)
    let stop := position + run.items.length
    let depth := joinDepth total (position - last.items.length) position stop
    let (last, waiting) ← joinWaiting join depth last waiting
    joinAll next join total count stop run ((last, depth) :: waiting) rest
  | _, _, last, waiting, _ => do return (← joinWaiting join 0 last waiting).1

/-- Items in ascending order, where `settle` sorts the runs that are left unsorted. An eager sort
leaves none. -/
def runSort (less : Less ε α) (eager : Bool) (settle : List α → Sorter ε (List α))
    (items : List α) : Sorter ε (List α) := do
  let total := items.length
  let next := nextRun less eager (goodLength total)
  let (first, rest) ← next items
  let run ← joinAll next (Run.join less settle) total total first.items.length first [] rest
  run.settled settle

end ComponentMarkup.Sorting
