import ComponentMarkup.Element.OfNode
import ComponentMarkup.Eval.Basic
import ComponentMarkup.Expr.Printer
import ComponentMarkup.Markup.Reader
import ComponentMarkup.Template.Lowering

/-!
# Templates

A template text is read, reduced to its root element and lowered to one expression, which can then
be evaluated under any bindings.
-/

namespace ComponentMarkup

structure Template where
  expr : Expr

namespace Template

def compile (vocabulary : Vocabulary) (text : List Char) : Except TemplateError Template := do
  let tree ← (Node.parse text).mapError (TemplateError.ofMarkup text)
  let root ← (Element.ofNode text tree).mapError (TemplateError.ofMarkup text)
  let expr ← (root.lower text vocabulary).mapError (TemplateError.ofCompile text)
  return ⟨expr⟩

/-- The expression of a template as source text. -/
def source (t : Template) : String :=
  t.expr.source

/-- The value of a template under layers of bindings. -/
def evaluate [Natives] (t : Template) (layers : List Bindings) (next : Identity) :
    Except EvalError (Value × Identity) :=
  t.expr.evaluate layers next

end Template

end ComponentMarkup
