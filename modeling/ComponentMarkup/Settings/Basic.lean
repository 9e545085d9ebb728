import ComponentMarkup.Json.Basic
import ComponentMarkup.Tag.Vocabulary

/-!
# Settings

Settings list the providers and the renamed attributes of a vocabulary, and have a JSON form.
-/

namespace ComponentMarkup

/-- Providers and attributes to make a vocabulary of. -/
structure Settings where
  /-- The providers in order; none stand for the Dash libraries. -/
  providers : List Provider
  /-- Attributes with the arguments they are passed as. -/
  attributes : Entries String String
  /-- The attributes of the Dash libraries are renamed too. -/
  defaultAttributes : Bool
deriving DecidableEq, Repr

namespace Settings

/-- Settings that say nothing. -/
def default : Settings :=
  ⟨[], [], true⟩

/-- The providers that settings stand for. -/
def chosenProviders (s : Settings) : List Provider :=
  if s.providers.isEmpty then Provider.dash else s.providers

/-- All attributes to rename, where later ones replace earlier ones. -/
def renames (s : Settings) : List (String × String) :=
  (if s.defaultAttributes then Library.attributeNames else []) ++ s.attributes

def vocabulary (s : Settings) : Fresh Vocabulary :=
  Vocabulary.make s.chosenProviders s.renames

/-! ## JSON form -/

/-- A name that may be absent. -/
def ownerToJson : Option String → Json
  | some o => .str o
  | none => .null

/-- The place of a constructor as JSON. -/
def pathToJson (path : ConstructorPath) : Json :=
  .obj [("namespace", ownerToJson path.owner), ("name", .str path.name)]

/-- The word for a kind of providers. -/
def providerTag : Provider → String
  | .html _ => "html"
  | .core _ => "dcc"
  | .dataTable _ => "dash_table"
  | .bootstrap _ => "dbc"
  | .titleCase _ => "title_case"
  | .table _ => "table"

/-- What a provider has beside its kind, as JSON. -/
def providerField : Provider → String × Json
  | .html m => ("module", .str m)
  | .core m => ("module", .str m)
  | .dataTable m => ("module", .str m)
  | .bootstrap m => ("module", .str m)
  | .titleCase o => ("namespace", ownerToJson o)
  | .table tags => ("tags", .obj (tags.map fun (tag, path) => (tag, pathToJson path)))

def providerToJson (p : Provider) : Json :=
  .obj [("provider", .str (providerTag p)), providerField p]

def toJson (s : Settings) : Json :=
  .obj [("resolvers", .arr (s.providers.map providerToJson)),
    ("attributes", .obj (s.attributes.map fun (attr, argument) => (attr, .str argument))),
    ("default_attributes", .bool s.defaultAttributes)]

end Settings

end ComponentMarkup
