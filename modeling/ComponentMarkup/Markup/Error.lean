import ComponentMarkup.Markup.Cursor
import ComponentMarkup.Markup.Node

/-!
# Markup errors

Why a text is no template, or a parse tree stands for no element. The wording of a fault is given by
`MarkupFault.message` and the class it is reported under by `MarkupFault.code`.
-/

namespace ComponentMarkup

/-- What was needed at a place of a template. -/
inductive MarkupNeed where
  | elementStart
  | tagName
  | tagEnd
  /-- The close tag of the element with a name. -/
  | closeTag (name : String)
  | closeTagEnd
  | equalsSign
  | attributeValue
deriving DecidableEq, Repr

def MarkupNeed.text : MarkupNeed → String
  | .elementStart => "'<'"
  | .tagName => "tag name"
  | .tagEnd => "'>' or '/>'"
  | .closeTag name => "</" ++ name ++ ">"
  | .closeTagEnd => "'>'"
  | .equalsSign => "'='"
  | .attributeValue => "attribute value"

/-- How a parse tree can fail to follow the grammar. -/
inductive TreeDefect where
  | noElement
  | incompleteElement
  | notElement (rule : Rule)
  | noTagName
  | incompleteAttribute
  | notAttributeValue (rule : Rule)
  | noExpression
  | noNestedElement
deriving DecidableEq, Repr

def TreeDefect.text : TreeDefect → String
  | .noElement => "document without an element"
  | .incompleteElement => "element without open tag, content and close tag"
  | .notElement rule => rule.name ++ " is not an element"
  | .noTagName => "tag without a name"
  | .incompleteAttribute => "attribute without name and value"
  | .notAttributeValue rule => rule.name ++ " is not an attribute value"
  | .noExpression => "bracketed value without an expression"
  | .noNestedElement => "nested element without an element"

/-- What is wrong with a template. -/
inductive MarkupFault where
  /-- Something else was needed; nothing is found at the end of the text. -/
  | expected (need : MarkupNeed) (found : Option Char)
  | unclosedTag (name : String)
  | mismatchedTag (opened closed : String)
  | unterminatedString
  /-- A bracket without its partner. -/
  | unclosedDelimiter (bracket : Char)
  | trailingContent
  | malformed (defect : TreeDefect)
deriving DecidableEq, Repr

namespace MarkupFault

def message : MarkupFault → String
  | .expected need found => "Expected " ++ need.text ++ ", found " ++ describeFound found
  | .unclosedTag name => "Unclosed tag: <" ++ name ++ ">"
  | .mismatchedTag opened closed => "<" ++ opened ++ "> closed by </" ++ closed ++ ">"
  | .unterminatedString => "Unterminated string literal"
  | .unclosedDelimiter bracket => "Unclosed '" ++ bracket.toString ++ "'"
  | .trailingContent => "Unexpected content after the root element"
  | .malformed defect => "Malformed parse tree: " ++ defect.text

def code : MarkupFault → String
  | .expected .. => "unexpected-token"
  | .unclosedTag _ => "unclosed-tag"
  | .mismatchedTag .. => "mismatched-tag"
  | .unterminatedString => "unterminated-string"
  | .unclosedDelimiter _ => "unclosed-delimiter"
  | .trailingContent => "trailing-content"
  | .malformed _ => "unexpected-token"

end MarkupFault

/-- A fault and the part of the template it is about. -/
structure MarkupError where
  fault : MarkupFault
  span : Span
deriving DecidableEq, Repr

end ComponentMarkup
