import ComponentMarkup.Position.SourceMap

/-!
# Splicing text

A `Splice` is generated text under construction together with its source map. Text is appended in
three ways: as new text without a source, as a copy of source text, and as a replacement for a
construct of the source.
-/

namespace ComponentMarkup

/-- Generated text and where its runs came from. -/
structure Splice where
  text : List Char
  map : SourceMap
deriving DecidableEq, Repr

namespace Splice

def empty : Splice :=
  ⟨[], .empty⟩

/-- The offset at which the next text will stand. -/
def offset (s : Splice) : Nat :=
  Text.byteLength s.text

/-- Append text that has no counterpart in the source. -/
def pushText (s : Splice) (text : List Char) : Splice :=
  { s with text := s.text ++ text }

/-- Append text copied from the source at `sourceOffset`. Copying nothing records nothing. -/
def pushCopy (s : Splice) (text : List Char) (sourceOffset : Nat) : Splice :=
  if text.isEmpty then s
  else
    let length := Text.byteLength text
    ⟨s.text ++ text, s.map.insert ⟨s.offset, length, ⟨sourceOffset, sourceOffset + length⟩⟩⟩

/-- Append text that stands in for the construct at `source`. -/
def pushReplacement (s : Splice) (text : List Char) (source : Span) : Splice :=
  ⟨s.text ++ text, s.map.insert ⟨s.offset, Text.byteLength text, source⟩⟩

end Splice

end ComponentMarkup
