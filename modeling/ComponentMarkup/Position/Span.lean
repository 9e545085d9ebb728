import ComponentMarkup.Text.Bytes

/-!
# Spans

A `Span` is the half-open range `[start, stop)` of byte offsets that a construct occupies in its
source text. Every tree node and every error of the library carries one.
-/

namespace ComponentMarkup

/-- A half-open range `[start, stop)` of byte offsets. -/
structure Span where
  start : Nat
  stop : Nat
deriving DecidableEq, Repr, Inhabited

namespace Span

/-- The span without extent at an offset. -/
def empty (offset : Nat) : Span :=
  ⟨offset, offset⟩

def length (s : Span) : Nat :=
  s.stop - s.start

/-- A span is empty when it starts where it stops. -/
def isEmpty (s : Span) : Bool :=
  s.start == s.stop

/-- One span lies entirely inside another. -/
def contains (outer inner : Span) : Bool :=
  outer.start ≤ inner.start && inner.stop ≤ outer.stop

/-- An offset is covered by a span; the stop itself is not. -/
def containsOffset (s : Span) (offset : Nat) : Bool :=
  s.start ≤ offset && offset < s.stop

theorem containsOffset_iff {s : Span} {offset : Nat} :
    s.containsOffset offset = true ↔ s.start ≤ offset ∧ offset < s.stop := by
  rw [containsOffset, Bool.and_eq_true, decide_eq_true_eq, decide_eq_true_eq]

theorem containsOffset_eq_false_iff {s : Span} {offset : Nat} :
    s.containsOffset offset = false ↔ offset < s.start ∨ s.stop ≤ offset := by
  rw [← Bool.not_eq_true, containsOffset_iff]
  omega

/-- The smallest span that covers both. -/
def merge (a b : Span) : Span :=
  ⟨min a.start b.start, max a.stop b.stop⟩

/-- Spans are ordered by where they start, then by where they stop. -/
def before (a b : Span) : Bool :=
  a.start < b.start || (a.start == b.start && a.stop < b.stop)

/-- The text under a span. A span that leaves the text, runs backwards or splits a character covers
no text. -/
def slice (s : Span) (text : List Char) : List Char :=
  (Text.slice? text s.start s.stop).getD []

end Span

end ComponentMarkup
