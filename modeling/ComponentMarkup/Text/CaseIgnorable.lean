import ComponentMarkup.Text.GraphemeExtend

/-!
# Case-ignorable characters

The characters that do not interrupt a word when the case of its neighbours is decided: the
Unicode property Case_Ignorable.
-/

namespace ComponentMarkup.Text

/-- The gaps and ranges of the code points with the property Case_Ignorable that do not extend the
character before them. -/
def caseIgnorableRuns : List Nat := [
  39, 1, 6, 1, 11, 1, 35, 1, 1, 1, 71, 1, 4, 1, 1, 1, 4, 1, 2, 2, 503, 80, 116, 2, 4, 1, 9, 2, 1, 1,
  465, 1, 5, 1, 148, 1, 11, 6, 22, 1, 35, 1, 156, 1, 7, 2, 40, 1, 228, 2, 4, 1, 31, 1, 9, 1, 3, 1,
  95, 1, 7, 2, 55, 1, 24, 1, 142, 1, 1236, 1, 127, 1, 565, 1, 1754, 1, 54, 1, 52, 1, 611, 1, 464, 6,
  174, 63, 13, 1, 34, 37, 509, 1, 1, 3, 11, 3, 13, 3, 13, 3, 13, 2, 12, 1, 1, 3, 8, 2, 10, 1, 2, 1,
  2, 5, 49, 5, 1, 10, 1, 1, 13, 1, 16, 13, 3039, 2, 241, 1, 191, 1, 469, 1, 43, 5, 5, 1, 95, 4, 93,
  3, 28438, 1, 1250, 6, 270, 1, 114, 1, 28, 2, 98, 34, 78, 1, 23, 3, 102, 4, 3, 2, 469, 1, 22, 1,
  137, 1, 108, 1, 21, 2, 102, 5, 9, 3, 20550, 17, 592, 1, 62, 1, 2, 1, 169, 1, 7, 1, 6, 1, 11, 1,
  35, 1, 1, 1, 47, 1, 114, 1, 21, 3, 1924, 6, 1, 42, 1, 9, 1427, 1, 32, 1, 341, 1, 503, 1, 15, 1,
  3339, 1, 5718, 16, 14080, 4, 508, 3, 40, 2, 550, 13, 64, 2, 1, 1, 14, 2, 16380, 4, 1, 7, 1, 2,
  3233, 4, 5327, 8, 3765, 62, 201, 7, 941, 1, 531, 1, 587, 1, 2735, 5, 789505, 1]

def isCaseIgnorable (c : Char) : Bool :=
  inRuns markRuns c.toNat || inRuns caseIgnorableRuns c.toNat

end ComponentMarkup.Text
