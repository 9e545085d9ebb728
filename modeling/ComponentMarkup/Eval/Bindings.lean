import ComponentMarkup.Eval.Error
import ComponentMarkup.Value.Json

/-!
# Bindings

Names with their values. An expression is evaluated under several layers of bindings; a name means
what the first layer that has it says.
-/

namespace ComponentMarkup

abbrev Bindings := Entries String Value

namespace Bindings

/-- What JSON other than an object is called. -/
def jsonKind : Json → String
  | .null => "null"
  | .bool _ => "a boolean"
  | .int _ => "a number"
  | .float _ => "a number"
  | .str _ => "a string"
  | .arr _ => "an array"
  | .obj _ => "an object"

/-- The members of a JSON object as bindings. -/
def ofJson : Json → Except EvalError Bindings
  | .obj members => .ok (orderByKey (Value.ofJsonMembers members))
  | json => .error (.notBindings (jsonKind json))

end Bindings

/-- What the first layer that has a name says. -/
def lookupLayers (name : String) (layers : List Bindings) : Option Value :=
  layers.findSome? (List.lookup name)

end ComponentMarkup
