import ComponentMarkup.Position.Span

/-!
# Elements

A template is one element: a tag with attributes and content. Attribute values and content may hold
expressions, which are kept as runs of source text around the elements nested in them.
-/

namespace ComponentMarkup

mutual

/-- An element. A self-closing one has no content, which differs from empty content. -/
structure Element where
  tag : String
  attrs : List Attribute
  content : Option (List ContentItem)
  span : Span

structure Attribute where
  name : String
  value : AttributeValue
  span : Span

inductive AttributeValue where
  /-- A quoted text, without its quotes. -/
  | literal (text : String)
  | expr (source : EmbeddedExpr)
  /-- An expression in brackets, which makes a list. -/
  | spread (source : EmbeddedExpr)

inductive ContentItem where
  | element (element : Element)
  | literal (text : String)
  /-- An expression that is one child. -/
  | expr (source : EmbeddedExpr)
  /-- An expression in brackets, whose items are children. -/
  | spread (source : EmbeddedExpr)

/-- The source text of an expression, in segments. -/
structure EmbeddedExpr where
  span : Span
  segments : List Segment

/-- A run of source text. With an element it is that element between its parentheses. -/
structure Segment where
  text : List Char
  span : Span
  element : Option Element

end

namespace Element

/-- The element ends with its open tag. -/
def isSelfClosing (e : Element) : Bool :=
  e.content.isNone

/-- The items of content, of which a self-closing element has none. -/
def children (e : Element) : List ContentItem :=
  e.content.getD []

/-- The value of the first attribute with a name. -/
def attr? (e : Element) (name : String) : Option AttributeValue :=
  (e.attrs.find? (·.name == name)).map (·.value)

end Element

namespace EmbeddedExpr

/-- The whole source text of an expression. -/
def text (source : EmbeddedExpr) : List Char :=
  source.segments.flatMap (·.text)

/-- The elements nested in an expression, from left to right. -/
def nested (source : EmbeddedExpr) : List Element :=
  source.segments.filterMap (·.element)

end EmbeddedExpr

namespace Segment

/-- A run of plain source text. -/
def raw (source : List Char) (span : Span) : Segment :=
  ⟨span.slice source, span, none⟩

end Segment

end ComponentMarkup
