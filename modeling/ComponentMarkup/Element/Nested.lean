import ComponentMarkup.Element.Basic

/-!
# Nested elements

Elements inside of expressions are kept, until their expression is put together, in an index by the
offset at which they start. An expression then takes out those that lie in its span and becomes a
sequence of segments.
-/

namespace ComponentMarkup

/-- An element and the span it takes with its parentheses. -/
structure NestedElement where
  span : Span
  element : Element

/-- Nested elements in the order of the offsets at which they start, at most one at each. -/
abbrev NestedIndex := List NestedElement

namespace NestedIndex

def startsAt (index : NestedIndex) (offset : Nat) : Bool :=
  index.any (·.span.start == offset)

/-- Add an element, unless one starts at the same offset already. -/
def record (nested : NestedElement) : NestedIndex → NestedIndex
  | [] => [nested]
  | first :: rest =>
    if first.span.start < nested.span.start then first :: record nested rest
    else if first.span.start = nested.span.start then first :: rest
    else nested :: first :: rest

/-- The plain run from an offset up to another, if it is not empty. -/
def gap (source : List Char) (start stop : Nat) : List Segment :=
  if start < stop then [.raw source ⟨start, stop⟩] else []

/-- The segments of a span from an offset on, and the elements that were not taken. Elements that
start before the offset, that start outside of the span or that reach past it are left. -/
def takeFrom (source : List Char) (span : Span) (offset : Nat) :
    NestedIndex → List Segment × NestedIndex
  | [] => (gap source offset span.stop, [])
  | first :: rest =>
    if offset ≤ first.span.start && span.containsOffset first.span.start &&
        first.span.stop ≤ span.stop then
      let (segments, left) := takeFrom source span first.span.stop rest
      (gap source offset first.span.start ++
        ⟨first.span.slice source, first.span, some first.element⟩ :: segments, left)
    else
      let (segments, left) := takeFrom source span offset rest
      (segments, first :: left)

/-- The segments of a span, and the elements that were not taken. There is at least one segment. -/
def take (source : List Char) (span : Span) (index : NestedIndex) : List Segment × NestedIndex :=
  match takeFrom source span span.start index with
  | ([], left) => ([.raw source span], left)
  | result => result

end NestedIndex

end ComponentMarkup
