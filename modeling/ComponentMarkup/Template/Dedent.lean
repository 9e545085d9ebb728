import ComponentMarkup.Position.Span
import ComponentMarkup.Text.Search

/-!
# Dedenting

An expression that is written over several lines is moved to the left before it is read: blank lines
at its start are dropped, and from every line the indentation that all lines have in common. The
text is not changed here; the spans to cut out of it are found.
-/

namespace ComponentMarkup.Dedent

/-- The lines of a text, without the newlines between them. -/
def lines (text : List Char) : List (List Char) :=
  Text.split ['\n'] text

def isBlankLine (line : List Char) : Bool :=
  line.all Text.isBlank

/-- The blank lines at the start of a text and what follows them. The last line is never among
them. -/
def splitBlankLines : List (List Char) → List (List Char) × List (List Char)
  | [] => ([], [])
  | [line] => ([], [line])
  | line :: rest =>
    if isBlankLine line then
      let (blank, body) := splitBlankLines rest
      (line :: blank, body)
    else ([], line :: rest)

/-- The number of spaces and tabs at the start of a line. -/
def indentation (line : List Char) : Nat :=
  (line.takeWhile fun c => c == ' ' || c == '\t').length

/-- The indentation that all lines have in common, blank lines apart. -/
def margin (body : List (List Char)) : Nat :=
  (((body.filter (!isBlankLine ·)).map indentation).min?).getD 0

/-- The cuts at the starts of lines, of which the first starts at an offset. -/
def lineCuts (margin : Nat) (offset : Nat) : List (List Char) → List Span
  | [] => []
  | line :: rest =>
    let drop := min (indentation line) margin
    let more := lineCuts margin (offset + Text.byteLength line + 1) rest
    if drop = 0 then more else ⟨offset, offset + drop⟩ :: more

/-- The spans to cut out of a text. -/
def cuts (text : List Char) : List Span :=
  let (blank, body) := splitBlankLines (lines text)
  let start := Text.byteLength (blank.flatMap fun line => line ++ ['\n'])
  (if start = 0 then [] else [⟨0, start⟩]) ++ lineCuts (margin body) start body

/-- The parts of a span that no cut covers. The cuts are in order and do not overlap. -/
def keep (span : Span) : List Span → List Span
  | [] => if span.start < span.stop then [span] else []
  | cut :: rest =>
    if cut.stop ≤ span.start || span.stop ≤ cut.start then keep span rest
    else
      (if span.start < cut.start then [⟨span.start, cut.start⟩] else []) ++
        keep ⟨max span.start cut.stop, span.stop⟩ rest

/-- A text without its cuts. -/
def apply (text : List Char) : List Char :=
  (keep ⟨0, Text.byteLength text⟩ (cuts text)).flatMap (·.slice text)

end ComponentMarkup.Dedent
