import ComponentMarkup.Settings.Basic
import ComponentMarkup.Json.Draft

/-!
# Reading settings

Settings are read from their JSON text in the order of the text, and the first mistake decides: a
place where the text is not JSON, or JSON of the wrong shape.

Providers are the exception. The members of a provider are set aside until its kind is known,
because the kind may be written after them; only then is their shape looked at.
-/

namespace ComponentMarkup

/-- Why a text is no JSON form of settings. -/
inductive SettingsError where
  /-- The text is not JSON. -/
  | malformedText
  /-- The text is JSON of the wrong shape. -/
  | wrongShape
deriving DecidableEq, Repr

def SettingsError.category : SettingsError → String
  | .malformedText => "syntax"
  | .wrongShape => "data"

namespace Settings

/-! ## Plain shapes -/

/-- The error for a value that should have been something else. A scalar is looked at first, and may
turn out to be no JSON. -/
def mismatch : Draft → SettingsError
  | .broken => .malformedText
  | .outOfRange => .malformedText
  | .illString => .malformedText
  | _ => .wrongShape

def readString : Draft → Except SettingsError String
  | .str s => .ok s
  | d => .error (mismatch d)

def readBool : Draft → Except SettingsError Bool
  | .bool b => .ok b
  | d => .error (mismatch d)

mutual

/-- A value that nobody looks at is JSON to its end. -/
def isWhole : Draft → Bool
  | .broken => false
  | .arr items => itemsAreWhole items
  | .obj members => membersAreWhole members
  | _ => true

def itemsAreWhole : List Draft → Bool
  | [] => true
  | d :: rest => isWhole d && itemsAreWhole rest

def membersAreWhole : List (Draft × Draft) → Bool
  | [] => true
  | (key, d) :: rest => isWhole key && isWhole d && membersAreWhole rest

end

/-- Attributes with their arguments. A repeated attribute keeps its last argument. -/
def readAttributes : Draft → Except SettingsError (Entries String String)
  | .obj members => do
    let pairs ← members.mapM fun (key, value) => do
      let key ← readString key
      return (key, ← readString value)
    return Entries.ofPairs pairs
  | d => .error (mismatch d)

/-! ## Providers -/

mutual

/-- How deep arrays and objects are nested in a value. -/
def nesting : Json → Nat
  | .arr items => itemsNesting items + 1
  | .obj members => membersNesting members + 1
  | _ => 0

def itemsNesting : List Json → Nat
  | [] => 0
  | x :: rest => max (nesting x) (itemsNesting rest)

def membersNesting : List (String × Json) → Nat
  | [] => 0
  | (_, x) :: rest => max (nesting x) (membersNesting rest)

end

/-- The deepest nesting of a value that is set aside. A whole text may be nested 127 deep, of which
the settings, their list of providers and the provider take three. -/
def maxNesting : Nat :=
  124

/-- A value that is set aside. -/
def setAside (d : Draft) : Except SettingsError Json :=
  match d.toJson? with
  | some json => if nesting json ≤ maxNesting then .ok json else .error .malformedText
  | none => .error .malformedText

/-- A string, when the text is known to be JSON. -/
def stringOf : Json → Except SettingsError String
  | .str s => .ok s
  | _ => .error .wrongShape

/-- A name that may be absent. -/
def ownerOf : Json → Except SettingsError (Option String)
  | .null => .ok none
  | .str s => .ok (some s)
  | _ => .error .wrongShape

/-- The member with a name, which may be there once at most. -/
def uniqueMember (name : String) (members : List (String × Json)) :
    Except SettingsError (Option Json) :=
  match members.filter (·.1 == name) with
  | [] => .ok none
  | [(_, json)] => .ok (some json)
  | _ => .error .wrongShape

/-- The place of a constructor. -/
def pathOf : Json → Except SettingsError ConstructorPath
  | .obj members => do
    let owner ← match ← uniqueMember "namespace" members with
      | some json => ownerOf json
      | none => pure none
    match ← uniqueMember "name" members with
    | some json => return ⟨owner, ← stringOf json⟩
    | none => .error .wrongShape
  | .arr [owner, name] => do
    let owner ← ownerOf owner
    return ⟨owner, ← stringOf name⟩
  | _ => .error .wrongShape

/-- Tags with their constructors. A repeated tag keeps its last constructor. -/
def tagsOf : Json → Except SettingsError ConstructorTable
  | .obj members => do
    return Entries.ofPairs (← members.mapM fun (tag, json) => do return (tag, ← pathOf json))
  | _ => .error .wrongShape

inductive ProviderKind where
  | html | core | dataTable | bootstrap | titleCase | table
deriving DecidableEq, Repr

/-- The kind that a word names. -/
def kindOf : String → Except SettingsError ProviderKind
  | "html" => .ok .html
  | "dcc" => .ok .core
  | "dash_table" => .ok .dataTable
  | "dbc" => .ok .bootstrap
  | "title_case" => .ok .titleCase
  | "table" => .ok .table
  | _ => .error .wrongShape

/-- The name of the one member that a kind of providers has. -/
def ProviderKind.field : ProviderKind → String
  | .titleCase => "namespace"
  | .table => "tags"
  | _ => "module"

/-- A module, or its usual name. -/
def moduleOf (usual : String) : Option Json → Except SettingsError String
  | some json => stringOf json
  | none => .ok usual

/-- The provider of a kind with the value of its member. -/
def providerOf : ProviderKind → Option Json → Except SettingsError Provider
  | .html, json => return .html (← moduleOf "html" json)
  | .core, json => return .core (← moduleOf "dcc" json)
  | .dataTable, json => return .dataTable (← moduleOf "dash_table" json)
  | .bootstrap, json => return .bootstrap (← moduleOf "dbc" json)
  | .titleCase, some json => return .titleCase (← ownerOf json)
  | .titleCase, none => .ok (.titleCase none)
  | .table, some json => return .table (← tagsOf json)
  | .table, none => .error .wrongShape

/-- The kind of a provider and its other members, set aside. -/
def providerMembers : Option ProviderKind → List (Draft × Draft) →
    Except SettingsError (ProviderKind × List (String × Json))
  | some kind, [] => .ok (kind, [])
  | none, [] => .error .wrongShape
  | kind, (key, value) :: rest => do
    let key ← readString key
    if key = "provider" then
      if kind.isSome then .error .wrongShape
      let kind ← kindOf (← readString value)
      providerMembers (some kind) rest
    else
      let json ← setAside value
      let (kind, members) ← providerMembers kind rest
      return (kind, (key, json) :: members)

/-- A provider: an object, or an array of its kind and the value of its member. -/
def readProvider : Draft → Except SettingsError Provider
  | .obj members => do
    let (kind, members) ← providerMembers none members
    providerOf kind (← uniqueMember kind.field members)
  | .arr [] => .error .wrongShape
  | .arr (first :: rest) => do
    let kind ← kindOf (← readString first)
    match ← rest.mapM setAside with
    | [] => providerOf kind none
    | [json] => providerOf kind (some json)
    | _ => .error .wrongShape
  | d => .error (mismatch d)

def readProviders : Draft → Except SettingsError (List Provider)
  | .arr items => items.mapM readProvider
  | d => .error (mismatch d)

/-! ## Settings -/

/-- The parts of settings read so far. -/
structure SettingsParts where
  providers : Option (List Provider)
  attributes : Option (Entries String String)
  defaultAttributes : Option Bool

/-- The settings of their parts; parts that are absent say nothing. -/
def SettingsParts.settings (parts : SettingsParts) : Settings :=
  ⟨parts.providers.getD [], parts.attributes.getD [], parts.defaultAttributes.getD true⟩

/-- The parts with those of further members. A part may be there once at most; other members may
hold anything. -/
def readMembers (parts : SettingsParts) : List (Draft × Draft) → Except SettingsError SettingsParts
  | [] => .ok parts
  | (key, value) :: rest => do
    match ← readString key with
    | "resolvers" =>
      if parts.providers.isSome then .error .wrongShape
      readMembers { parts with providers := some (← readProviders value) } rest
    | "attributes" =>
      if parts.attributes.isSome then .error .wrongShape
      readMembers { parts with attributes := some (← readAttributes value) } rest
    | "default_attributes" =>
      if parts.defaultAttributes.isSome then .error .wrongShape
      readMembers { parts with defaultAttributes := some (← readBool value) } rest
    | _ => if isWhole value then readMembers parts rest else .error .malformedText

/-- The parts in the order providers, attributes, flag, of which later ones may be absent. -/
def readItems : List Draft → Except SettingsError SettingsParts
  | [] => .ok ⟨none, none, none⟩
  | [providers] => do return ⟨some (← readProviders providers), none, none⟩
  | [providers, attributes] => do
    let providers ← readProviders providers
    return ⟨some providers, some (← readAttributes attributes), none⟩
  | providers :: attributes :: flag :: more => do
    let providers ← readProviders providers
    let attributes ← readAttributes attributes
    let flag ← readBool flag
    if more.isEmpty then return ⟨some providers, some attributes, some flag⟩
    else .error .malformedText

/-- Settings: an object, or an array of their parts. -/
def ofDraft : Draft → Except SettingsError Settings
  | .obj members => do return (← readMembers ⟨none, none, none⟩ members).settings
  | .arr items => do return (← readItems items).settings
  | d => .error (mismatch d)

/-- Read settings from their text. -/
def ofText (text : List Char) : Except SettingsError Settings := do
  let (draft, rest) := Draft.read text
  let settings ← ofDraft draft
  if rest.isEmpty then return settings else .error .malformedText

end Settings

end ComponentMarkup
