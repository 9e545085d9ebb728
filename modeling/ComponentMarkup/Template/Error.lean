import ComponentMarkup.Expr.SyntaxError
import ComponentMarkup.Markup.Error
import ComponentMarkup.Position.LineIndex

/-!
# Template errors

Why an element cannot be compiled, and the errors of whole templates: markup errors and compile
errors, with the line and column they point at.
-/

namespace ComponentMarkup

/-- What keeps an element from being compiled. -/
inductive CompileFault where
  | unknownTag (tag : String)
  | invalidExpression (fault : SyntaxFault)
  /-- Two attributes of an element that are passed as one argument. -/
  | duplicateArgument (tag name : String)
  | noTagName
  | noSegments
deriving Repr

namespace CompileFault

def message : CompileFault → String
  | .unknownTag tag => "no resolver for tag: " ++ tag
  | .invalidExpression fault => "Invalid expression: " ++ fault.message
  | .duplicateArgument tag name =>
    "<" ++ tag ++ "> got multiple values for argument '" ++ name ++ "'"
  | .noTagName => "Malformed node: element without a tag name"
  | .noSegments => "Malformed node: expression without source segments"

def code : CompileFault → String
  | .unknownTag _ => "unknown-tag"
  | .invalidExpression _ => "invalid-expression"
  | .duplicateArgument .. => "duplicate-argument"
  | .noTagName => "malformed-node"
  | .noSegments => "malformed-node"

end CompileFault

/-- A fault and the part of the template it is about. -/
structure CompileError where
  fault : CompileFault
  span : Span
deriving Repr

/-- Why a template could not be compiled. -/
inductive TemplateFault where
  | markup (fault : MarkupFault)
  | compile (fault : CompileFault)
deriving Repr

/-- A fault, the part of the template it is about, and the place where that part starts. -/
structure TemplateError where
  fault : TemplateFault
  span : Span
  location : LineColumn
deriving Repr

namespace TemplateError

def ofMarkup (source : List Char) (e : MarkupError) : TemplateError :=
  ⟨.markup e.fault, e.span, (LineIndex.ofText source).position e.span.start⟩

def ofCompile (source : List Char) (e : CompileError) : TemplateError :=
  ⟨.compile e.fault, e.span, (LineIndex.ofText source).position e.span.start⟩

/-- The template is not even markup. -/
def isMarkup (e : TemplateError) : Bool :=
  match e.fault with
  | .markup _ => true
  | .compile _ => false

def message (e : TemplateError) : String :=
  match e.fault with
  | .markup fault => fault.message
  | .compile fault => fault.message

def code (e : TemplateError) : String :=
  match e.fault with
  | .markup fault => fault.code
  | .compile fault => fault.code

/-- The error in one line, with its place; lines and columns are counted from one. -/
def display (e : TemplateError) : String :=
  s!"{e.message} at line {e.location.line + 1}, column {e.location.column + 1}"

/-- The stage that found the error. -/
def stage (e : TemplateError) : String :=
  if e.isMarkup then "parse" else "compile"

/-- The class of an error as reports show it. -/
def reportCode (e : TemplateError) : String :=
  "htexpr::" ++ e.code

/-- What a report says about the part of the template that the error is about. -/
def label (e : TemplateError) : String :=
  if e.isMarkup then "here" else "in this template fragment"

end TemplateError

end ComponentMarkup
