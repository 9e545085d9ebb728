import ComponentMarkup.Element.Nested
import ComponentMarkup.Markup.Error
import ComponentMarkup.Text.Search

/-!
# Elements of parse trees

A parse tree is reduced to the element it stands for. The elements nested in an expression are
reduced first and wait in an index for the expression around them.
-/

namespace ComponentMarkup

/-- A reduction that may fail, with the nested elements that no expression has taken yet. -/
abbrev Reduction := StateT NestedIndex (Except MarkupError)

namespace Reduction

/-- Fail because the tree does not follow the grammar. -/
def malformed {α : Type} (defect : TreeDefect) (span : Span) : Reduction α :=
  throw ⟨.malformed defect, span⟩

/-- The text of the first name among the children of a tag. -/
def tagName (source : List Char) (children : List Node) (span : Span) : Reduction String :=
  match children.find? (·.rule == .tagName) with
  | some name => return String.ofList (name.text source)
  | none => malformed .noTagName span

/-- What a quoted text says: all but its first and its last byte. -/
def unquote (text : List Char) : List Char :=
  (Text.slice? text 1 (Text.byteLength text - 1)).getD []

/-- The source of an expression, with the nested elements in its span. -/
def exprSource (source : List Char) (span : Span) : Reduction EmbeddedExpr := do
  let (segments, left) := NestedIndex.take source span (← get)
  set left
  return ⟨span, segments⟩

/-- Content without the blanks at its end. Text of blanks alone is dropped. -/
def trimContent : List ContentItem → List ContentItem
  | [] => []
  | [.literal text] =>
    let trimmed := Text.trimEnd Text.isBlank text.toList
    if trimmed.isEmpty then [] else [.literal (String.ofList trimmed)]
  | item :: rest => item :: trimContent rest

mutual

/-- The element that a node stands for. -/
def element (source : List Char) (node : Node) : Reduction Element :=
  match node with
  | ⟨.selfClosing, span, children⟩ => do
    let tag ← tagName source children span
    let attrs ← attributes source children
    return ⟨tag, attrs, none, span⟩
  | ⟨.normal, span, [⟨_, openSpan, opening⟩, ⟨_, _, body⟩, ⟨_, closeSpan, closing⟩]⟩ => do
    let tag ← tagName source opening openSpan
    let attrs ← attributes source opening
    let closed ← tagName source closing closeSpan
    if tag = closed then
      let items ← contentItems source body
      return ⟨tag, attrs, some (trimContent items), span⟩
    else throw ⟨.mismatchedTag tag closed, closeSpan⟩
  | ⟨.normal, span, _⟩ => malformed .incompleteElement span
  | ⟨rule, span, _⟩ => malformed (.notElement rule) span

/-- The attributes among the children of a tag. -/
def attributes (source : List Char) (children : List Node) : Reduction (List Attribute) :=
  match children with
  | [] => return []
  | child :: rest => do
    if child.rule = .attribute then
      let attr ← attributeOf source child
      return attr :: (← attributes source rest)
    else attributes source rest

def attributeOf (source : List Char) (node : Node) : Reduction Attribute :=
  match node with
  | ⟨_, span, [name, value]⟩ => do
    let value ← attributeValue source value
    return ⟨String.ofList (name.text source), value, span⟩
  | ⟨_, span, _⟩ => malformed .incompleteAttribute span

def attributeValue (source : List Char) (node : Node) : Reduction AttributeValue :=
  match node with
  | ⟨.quotedLiteral, span, _⟩ => return .literal (String.ofList (unquote (span.slice source)))
  | ⟨.dictShorthand, span, children⟩ => do
    collectAll source children
    return .expr (← exprSource source span)
  | ⟨.exprValue, span, children⟩ => do return .expr (← innerExpr source children span)
  | ⟨.exprListValue, span, children⟩ => do return .spread (← innerExpr source children span)
  | ⟨rule, span, _⟩ => malformed (.notAttributeValue rule) span

def contentItems (source : List Char) (nodes : List Node) : Reduction (List ContentItem) :=
  match nodes with
  | [] => return []
  | ⟨.text, span, _⟩ :: rest => do
    return .literal (String.ofList (span.slice source)) :: (← contentItems source rest)
  | ⟨.contentExpr, span, children⟩ :: rest => do
    let e ← innerExpr source children span
    return .expr e :: (← contentItems source rest)
  | ⟨.contentExprList, span, children⟩ :: rest => do
    let e ← innerExpr source children span
    return .spread e :: (← contentItems source rest)
  | node :: rest => do
    let e ← element source node
    return .element e :: (← contentItems source rest)

/-- The source of the first expression among the children of a node. -/
def innerExpr (source : List Char) (children : List Node) (span : Span) : Reduction EmbeddedExpr :=
  match children with
  | [] => malformed .noExpression span
  | child :: rest =>
    if child.rule = .expr then do
      collect source child
      exprSource source child.span
    else innerExpr source rest span

/-- Reduce the elements nested in an expression and put them into the index. -/
def collect (source : List Char) (node : Node) : Reduction Unit :=
  match node with
  | ⟨.nestedElement, span, []⟩ => malformed .noNestedElement span
  | ⟨.nestedElement, span, inner :: _⟩ => do
    let e ← element source inner
    modify (NestedIndex.record ⟨span, e⟩)
  | ⟨.stringLiteral, _, _⟩ => return
  | ⟨.plain, _, _⟩ => return
  | ⟨_, _, children⟩ => collectAll source children

def collectAll (source : List Char) (nodes : List Node) : Reduction Unit :=
  match nodes with
  | [] => return
  | node :: rest => do
    collect source node
    collectAll source rest

end

/-- The element that a tree stands for. The tree is that of a document or of an element. -/
def root (source : List Char) (node : Node) : Reduction Element :=
  match node with
  | ⟨.document, span, []⟩ => malformed .noElement span
  | ⟨.document, _, child :: _⟩ => element source child
  | node => element source node

end Reduction

/-- The element that a parse tree of a source stands for. -/
def Element.ofNode (source : List Char) (node : Node) : Except MarkupError Element :=
  (Reduction.root source node).run' []

end ComponentMarkup
