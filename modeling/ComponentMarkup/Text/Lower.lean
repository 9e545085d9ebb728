import ComponentMarkup.Text.CaseRun

/-!
# Lower case

The full lower-case mapping of single characters.
-/

namespace ComponentMarkup.Text

/-- The characters with one counterpart. Those listed here are not the upper case of theirs. -/
def lowerRuns : List CaseRun := pairedRuns ++ [
  .block 0x1C5 1 1, .block 0x1C8 1 1, .block 0x1CB 1 1, .block 0x1F2 1 1, .block 0x3F4 1 (-60),
  .block 0x1E9E 1 (-7615), .block 0x1F88 8 (-8), .block 0x1F98 8 (-8), .block 0x1FA8 8 (-8),
  .block 0x1FBC 1 (-9), .block 0x1FCC 1 (-9), .block 0x1FFC 1 (-9), .block 0x2126 1 (-7517),
  .block 0x212A 1 (-8383), .block 0x212B 1 (-8262)]

/-- The lower-case form of a character on its own. The dotted capital `İ` is the only one that
becomes two characters. -/
def lowerChar (c : Char) : List Char :=
  mapCase lowerRuns [(0x130, [0x69, 0x307])] c

end ComponentMarkup.Text
