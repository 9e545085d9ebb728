import ComponentMarkup.Entries
import ComponentMarkup.Expr.Basic
import ComponentMarkup.Tag.Library
import ComponentMarkup.Text.Case

/-!
# Providers

A provider says for some tags where the constructor of their components is found. This module holds
the providers for the component libraries, for all tags at once, and for an explicit table of tags.
-/

namespace ComponentMarkup

/-- Where a constructor is found: in a namespace, or under a bare name. -/
structure ConstructorPath where
  owner : Option String
  name : String
deriving DecidableEq, Repr

namespace ConstructorPath

/-- The expression that names the constructor. -/
def callee (r : ConstructorPath) : Expr :=
  match r.owner with
  | some o => .attribute (.name o) r.name
  | none => .name r.name

/-- The name of the constructor with its namespace. -/
def display (r : ConstructorPath) : String :=
  match r.owner with
  | some o => o ++ "." ++ r.name
  | none => r.name

end ConstructorPath

/-- A tag with a capital letter at the start of every run of letters, all other letters small. -/
def titleCaseTag (tag : String) : String :=
  String.ofList (Text.title tag.toList)

/-- Tags with their constructors. -/
abbrev ConstructorTable := Entries String ConstructorPath

/-- The ways to find a constructor for a tag. -/
inductive Provider where
  /-- HTML elements in any letter case, from a module. -/
  | html (module : String)
  /-- Core components by their names, from a module. -/
  | core (module : String)
  /-- The data table, from a module. -/
  | dataTable (module : String)
  /-- Bootstrap components by their names, from a module. -/
  | bootstrap (module : String)
  /-- Every tag, in title case. -/
  | titleCase (owner : Option String)
  | table (tags : ConstructorTable)
deriving DecidableEq, Repr

namespace Provider

/-- The constructor of an HTML element. Two of the elements have names of their own, so that they do
not hide functions. -/
def htmlName (title : String) : String :=
  if title = "Map" ∨ title = "Object" then title ++ "El" else title

/-- A tag that is one of the given names, in a module. -/
def exactly (names : List String) (module tag : String) : Option ConstructorPath :=
  if names.contains tag then some ⟨some module, tag⟩ else none

/-- Where the constructor for a tag is found, if the provider knows. -/
def resolve? (p : Provider) (tag : String) : Option ConstructorPath :=
  match p with
  | .html m =>
    let title := titleCaseTag tag
    if Library.htmlElements.contains title then some ⟨some m, htmlName title⟩ else none
  | .core m => exactly Library.coreComponents m tag
  | .dataTable m => exactly ["DataTable"] m tag
  | .bootstrap m => exactly Library.bootstrapComponents m tag
  | .titleCase o => some ⟨o, titleCaseTag tag⟩
  | .table tags => tags.lookup tag

/-- The providers of the Dash libraries under their usual names. -/
def dash : List Provider :=
  [.html "html", .core "dcc", .dataTable "dash_table"]

/-- Bootstrap components in front of the other libraries. -/
def bootstrapAndDash : List Provider :=
  .bootstrap "dbc" :: dash

end Provider

end ComponentMarkup
