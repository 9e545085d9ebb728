/-!
# Sets of code points

A property of characters is stored as the list of the code point ranges that have it, in increasing
order. The large properties are stored by the lengths of their ranges and of the gaps before them.
-/

namespace ComponentMarkup.Text

/-- Membership in an increasing list of closed ranges. The search ends at the first range that
starts past the code point. -/
def inRanges : List (Nat × Nat) → Nat → Bool
  | [], _ => false
  | (first, last) :: rest, n => if n < first then false else n ≤ last || inRanges rest n

/-- Membership in a set given by the lengths of its gaps and ranges in turn, from the first code
point on. -/
def inRuns : List Nat → Nat → Bool
  | gap :: range :: rest, n =>
    if n < gap then false else n < gap + range || inRuns rest (n - (gap + range))
  | _, _ => false

end ComponentMarkup.Text
