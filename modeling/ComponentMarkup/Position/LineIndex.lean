import ComponentMarkup.Text.Bytes

/-!
# Lines and columns

A `LineIndex` lists the byte offsets at which the lines of a text start. It turns an offset into a
line and a column, both counted from zero and the column in bytes.
-/

namespace ComponentMarkup

/-- A line and a column in bytes, both counted from zero. -/
structure LineColumn where
  line : Nat
  column : Nat
deriving DecidableEq, Repr, Inhabited

/-- Line and column as people count them, from one. -/
def LineColumn.display (p : LineColumn) : Nat × Nat :=
  (p.line + 1, p.column + 1)

/-- Where the lines of a text start, and where the text ends. -/
structure LineIndex where
  /-- Start offsets of the lines after the first, in order. -/
  laterStarts : List Nat
  length : Nat
deriving DecidableEq, Repr

namespace LineIndex

/-- The offsets just after each newline of `text`, which itself begins at `offset`. -/
def startsAfter (offset : Nat) : List Char → List Nat
  | [] => []
  | c :: text =>
    let next := offset + c.utf8Size
    if c = '\n' then next :: startsAfter next text else startsAfter next text

def ofText (text : List Char) : LineIndex :=
  ⟨startsAfter 0 text, Text.byteLength text⟩

/-- A text has one line more than it has newlines. -/
def lineCount (index : LineIndex) : Nat :=
  index.laterStarts.length + 1

/-- The position of an offset. An offset past the end counts as the end. -/
def position (index : LineIndex) (offset : Nat) : LineColumn :=
  let offset := min offset index.length
  let passed := index.laterStarts.takeWhile (· ≤ offset)
  ⟨passed.length, offset - passed.getLast?.getD 0⟩

end LineIndex

end ComponentMarkup
