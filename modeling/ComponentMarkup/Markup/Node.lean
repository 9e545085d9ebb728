import ComponentMarkup.Position.Span

/-!
# Parse trees of markup

A parse tree records which rule of the grammar covers which part of a template. In the grammar below
`ws` stands for any number of blanks.

```
document    ::= ws element ws
element     ::= '<' ws name attribute* ws '/>'                          (self-closing)
              | '<' ws name attribute* ws '>' ws content ws close       (normal)
close       ::= '</' ws name ws '>'
attribute   ::= ws name ws '=' ws value
value       ::= quoted text | '{' expr ':' expr '}' | '{' expr '}' | '[' expr ']'
content     ::= (element | '{' expr '}' | '[' expr ']' | text)*
expr        ::= (string | plain | nested)*
nested      ::= '(' ws element ws ')' | '(' expr ')' | '{' expr '}' | '[' expr ']'
```

Embedded expressions are followed only as far as is needed to find where they end.
-/

namespace ComponentMarkup

/-- The rules of the grammar. -/
inductive Rule where
  /-- A whole template, with its root element. -/
  | document
  /-- An element `<tag …/>`, with its name and attributes. -/
  | selfClosing
  /-- An element `<tag …>…</tag>`, with its open tag, content and close tag. -/
  | normal
  /-- The tag `<tag …>`, with its name and attributes. -/
  | openTag
  /-- The tag `</tag>`, with its name. -/
  | closeTag
  | tagName
  /-- An attribute, with its name and value. -/
  | attribute
  | attrName
  /-- A text between quotes. -/
  | quotedLiteral
  /-- An attribute value with a key and a value expression between braces. -/
  | dictShorthand
  /-- An attribute value with an expression between braces. -/
  | exprValue
  /-- An attribute value with an expression between brackets. -/
  | exprListValue
  /-- What stands between an open tag and a close tag. -/
  | content
  /-- An expression between braces, in content. -/
  | contentExpr
  /-- An expression between brackets, in content. -/
  | contentExprList
  /-- Text in content. -/
  | text
  /-- An expression, with its pieces. -/
  | expr
  /-- A string literal in an expression. -/
  | stringLiteral
  /-- An expression between parentheses, in an expression. -/
  | parens
  /-- An expression between braces, in an expression. -/
  | braces
  /-- An expression between brackets, in an expression. -/
  | brackets
  /-- An element between parentheses, in an expression. -/
  | nestedElement
  /-- Any other text of an expression. -/
  | plain
deriving DecidableEq, Repr

namespace Rule

def every : List Rule :=
  [.document, .selfClosing, .normal, .openTag, .closeTag, .tagName, .attribute, .attrName,
    .quotedLiteral, .dictShorthand, .exprValue, .exprListValue, .content, .contentExpr,
    .contentExprList, .text, .expr, .stringLiteral, .parens, .braces, .brackets, .nestedElement,
    .plain]

def name : Rule → String
  | .document => "Document"
  | .selfClosing => "SelfClosing"
  | .normal => "Normal"
  | .openTag => "OpenTag"
  | .closeTag => "CloseTag"
  | .tagName => "TagName"
  | .attribute => "Attribute"
  | .attrName => "AttrName"
  | .quotedLiteral => "QuotedLiteral"
  | .dictShorthand => "DictShorthand"
  | .exprValue => "ExprValue"
  | .exprListValue => "ExprListValue"
  | .content => "Content"
  | .contentExpr => "ContentExpr"
  | .contentExprList => "ContentExprList"
  | .text => "Text"
  | .expr => "Expr"
  | .stringLiteral => "StringLiteral"
  | .parens => "Parens"
  | .braces => "Braces"
  | .brackets => "Brackets"
  | .nestedElement => "NestedElement"
  | .plain => "Opaque"

def ofName? (n : String) : Option Rule :=
  every.find? (·.name == n)

/-- The two forms of elements. -/
def isElement (r : Rule) : Bool :=
  r == .selfClosing || r == .normal

/-- The three kinds of brackets inside of expressions. -/
def isGroup (r : Rule) : Bool :=
  r == .parens || r == .braces || r == .brackets

end Rule

/-- A node of a parse tree. -/
structure Node where
  rule : Rule
  span : Span
  children : List Node
deriving Repr

namespace Node

def leaf (rule : Rule) (span : Span) : Node :=
  ⟨rule, span, []⟩

/-- The text that a node covers. -/
def text (n : Node) (source : List Char) : List Char :=
  n.span.slice source

/-- The first child with a rule. -/
def child? (n : Node) (rule : Rule) : Option Node :=
  n.children.find? (·.rule == rule)

mutual

/-- A node and all nodes below it with their depths, each node before its children. -/
def outline (n : Node) (depth : Nat) : List (Nat × Node) :=
  match n with
  | ⟨rule, span, children⟩ => (depth, ⟨rule, span, children⟩) :: outlineAll children (depth + 1)

def outlineAll (nodes : List Node) (depth : Nat) : List (Nat × Node) :=
  match nodes with
  | [] => []
  | n :: rest => outline n depth ++ outlineAll rest depth

end

/-- The first node with a rule, where a node comes before its children. -/
def find? (n : Node) (rule : Rule) : Option Node :=
  ((n.outline 0).map Prod.snd).find? (·.rule == rule)

end Node

end ComponentMarkup
