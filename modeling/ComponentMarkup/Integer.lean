/-!
# Integers of 64 bits

Integers are the whole numbers from `-2 ^ 63` up to `2 ^ 63 - 1`. Results are computed on whole
numbers of any size and then checked to be in that range.
-/

namespace ComponentMarkup

/-- The least whole number beyond the integers, `2 ^ 63`. -/
def integerBound : Int :=
  9223372036854775808

/-- The integer that equals a whole number, if the number is in range. -/
def integer? (z : Int) : Option Int64 :=
  if -integerBound ≤ z ∧ z < integerBound then some (Int64.ofInt z) else none

end ComponentMarkup
