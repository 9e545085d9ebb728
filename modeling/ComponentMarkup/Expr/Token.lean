import ComponentMarkup.Decimal.Layout
import ComponentMarkup.Position.Span

/-!
# Tokens

The words of an expression. A token is either a symbol, which is always spelled the same way, or
carries the name, number or text that was written.
-/

namespace ComponentMarkup

/-- Tokens with one spelling: brackets, punctuation, operators and keywords. -/
inductive Symbol where
  | lparen | rparen | lbracket | rbracket | lbrace | rbrace
  | comma | colon | dot | assign
  | plus | minus | star | doubleStar | slash | doubleSlash | percent
  | eq | ne | lt | le | gt | ge
  | and | or | not | in | is | if | else | for | lambda
  | none | true | false
deriving DecidableEq, Repr

def Symbol.text : Symbol → String
  | .lparen => "("
  | .rparen => ")"
  | .lbracket => "["
  | .rbracket => "]"
  | .lbrace => "\x7b"
  | .rbrace => "\x7d"
  | .comma => ","
  | .colon => ":"
  | .dot => "."
  | .assign => "="
  | .plus => "+"
  | .minus => "-"
  | .star => "*"
  | .doubleStar => "**"
  | .slash => "/"
  | .doubleSlash => "//"
  | .percent => "%"
  | .eq => "=="
  | .ne => "!="
  | .lt => "<"
  | .le => "<="
  | .gt => ">"
  | .ge => ">="
  | .and => "and"
  | .or => "or"
  | .not => "not"
  | .in => "in"
  | .is => "is"
  | .if => "if"
  | .else => "else"
  | .for => "for"
  | .lambda => "lambda"
  | .none => "None"
  | .true => "True"
  | .false => "False"

/-- The symbols that are spelled like names. -/
def Symbol.keywords : List Symbol :=
  [.and, .or, .not, .in, .is, .if, .else, .for, .lambda, .none, .true, .false]

def Symbol.ofWord? (word : String) : Option Symbol :=
  Symbol.keywords.find? (·.text == word)

/-- One word of an expression. -/
inductive Token where
  | symbol (symbol : Symbol)
  | name (name : String)
  | int (value : Int64)
  | float (value : Float)
  /-- A string literal, with its escapes resolved. -/
  | str (text : String)
deriving Repr

/-- How a token is named in messages. -/
def Token.text : Token → String
  | .symbol s => s.text
  | .name n => n
  | .int i => toString i.toInt
  | .float x => Decimal.plain x
  | .str _ => "string literal"

/-- A token and the span of the source it covers. -/
structure Spanned where
  token : Token
  span : Span
deriving Repr

end ComponentMarkup
