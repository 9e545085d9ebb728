import ComponentMarkup.Expr.Token
import ComponentMarkup.Text.Escape

/-!
# Syntax errors

Why a source text is no expression. The cause is kept apart from its wording, which is given once,
by `SyntaxFault.message`.
-/

namespace ComponentMarkup

/-- What the parser was looking for. -/
inductive Expectation where
  | symbol (symbol : Symbol)
  | expression
  | attributeName
  | loopVariable
deriving DecidableEq, Repr

def Expectation.text : Expectation → String
  | .symbol s => "'" ++ s.text ++ "'"
  | .expression => "an expression"
  | .attributeName => "attribute name"
  | .loopVariable => "a loop variable"

/-- What is wrong with a source text. -/
inductive SyntaxFault where
  /-- A string literal without its closing quotes. -/
  | unterminatedString
  /-- Text that starts no token, or a number that does not fit. -/
  | invalid (text : List Char)
  /-- A token after the end of the expression. -/
  | trailing (token : Token)
  /-- Something else was needed; nothing is found at the end of the source. -/
  | expected (what : Expectation) (found : Option Token)
  | lambdaExpression
  | setDisplay
  | repeatedKeyword (name : String)
deriving Repr

def SyntaxFault.message : SyntaxFault → String
  | .unterminatedString => "unterminated string literal"
  | .invalid text => "invalid syntax near " ++ String.ofList (Text.showText text)
  | .trailing token => "unexpected '" ++ token.text ++ "'"
  | .expected what found =>
    "expected " ++ what.text ++ ", found " ++
      match found with
      | some token => "'" ++ token.text ++ "'"
      | none => "end of input"
  | .lambdaExpression => "lambda expressions are not supported"
  | .setDisplay => "set displays are not supported"
  | .repeatedKeyword name => "keyword argument repeated: " ++ name

/-- A fault and the byte offset at which it was noticed. -/
structure SyntaxError where
  fault : SyntaxFault
  offset : Nat
deriving Repr

namespace SyntaxError

def message (e : SyntaxError) : String :=
  e.fault.message

/-- The error in one line, with its offset. -/
def display (e : SyntaxError) : String :=
  "SyntaxError: " ++ e.message ++ " (at offset " ++ toString e.offset ++ ")"

end SyntaxError

end ComponentMarkup
