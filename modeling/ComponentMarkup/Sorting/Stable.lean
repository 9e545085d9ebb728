import ComponentMarkup.Sorting.Partition

/-!
# Stable sorting

Which comparisons a sort asks for depends on the number of items: a few are sorted by insertion,
more by runs of sorted blocks, and many by runs that are sorted by partition where they have to be.
-/

namespace ComponentMarkup.Sorting

variable {ε α : Type}

/-- Sort a run by partition. The bound allows for pivots that split off a quarter on average. -/
def settleRun (less : Less ε α) (items : List α) : Sorter ε (List α) :=
  partitionSort less (2 * items.length.log2) none items

/-- Items in ascending order; equal items keep theirs. -/
def stableSort (less : Less ε α) (items : List α) : Sorter ε (List α) :=
  if items.length ≤ 20 then insertionSort less items
  else runSort less (items.length ≤ 2 * blockSize) (settleRun less) items

end ComponentMarkup.Sorting
