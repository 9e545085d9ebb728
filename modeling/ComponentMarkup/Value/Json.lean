import ComponentMarkup.Decimal.Reading
import ComponentMarkup.Integer
import ComponentMarkup.Json.Basic
import ComponentMarkup.Value.Text

/-!
# Values and JSON

Plain data goes both ways. On the way out, tuples become arrays, keys that are no strings become
their texts, components become objects with a type and properties, and functions and modules their
texts. On the way in, the members of an object are taken in the order of their keys.
-/

namespace ComponentMarkup

/-- A key as the key of an object. -/
def Key.jsonKey : Key → String
  | .str s => s
  | k => String.ofList k.repr

/-- A double as a JSON number. What is no finite number becomes null. -/
def Json.ofFloat (x : Float) : Json :=
  if x.isFinite then .float x else .null

mutual

/-- A value as JSON. Of two entries with the same key text the later one counts. -/
def Value.toJson : Value → Json
  | .none => .null
  | .bool b => .bool b
  | .int i => .int i.toInt
  | .float x => Json.ofFloat x
  | .str s => .str s
  | .list items => .arr (Value.itemsToJson items)
  | .tuple items => .arr (Value.itemsToJson items)
  | .dict entries => .obj (Entries.ofPairs (Value.entriesToJson entries))
  | .builtin f => .str (String.ofList (functionText f.name))
  | .constructor _ _ n => .str (String.ofList (functionText n))
  | .method _ _ m => .str (String.ofList (functionText m.name))
  | .native _ n => .str (String.ofList (functionText n))
  | .module _ n _ => .str ("<module '" ++ n ++ "'>")
  | .component m n props =>
    .obj [("type", .str (qualifiedName m n)), ("props", .obj (Value.propsToJson props))]

def Value.itemsToJson : List Value → List Json
  | [] => []
  | v :: rest => v.toJson :: Value.itemsToJson rest

def Value.entriesToJson : List (Key × Value) → List (String × Json)
  | [] => []
  | (k, v) :: rest => (k.jsonKey, v.toJson) :: Value.entriesToJson rest

def Value.propsToJson : List (String × Value) → List (String × Json)
  | [] => []
  | (n, v) :: rest => (n, v.toJson) :: Value.propsToJson rest

end

/-- An integer of any size as a value: exactly if it fits, else the nearest double. -/
def Value.ofInt (i : Int) : Value :=
  match integer? i with
  | some n => .int n
  | Option.none => .float (Decimal.nearest (i < 0) i.natAbs 0)

/-- Put a member into members that are ordered by key, in place of one with the same key. -/
def insertByKey {α : Type} (key : String) (value : α) : List (String × α) → List (String × α)
  | [] => [(key, value)]
  | (k, v) :: rest =>
    if key < k then (key, value) :: (k, v) :: rest
    else if key == k then (key, value) :: rest
    else (k, v) :: insertByKey key value rest

/-- Members in the order of their keys, the last one of each key. -/
def orderByKey {α : Type} (members : List (String × α)) : List (String × α) :=
  members.foldl (fun ordered (k, v) => insertByKey k v ordered) []

mutual

/-- JSON as a value. -/
def Value.ofJson : Json → Value
  | .null => .none
  | .bool b => .bool b
  | .int i => Value.ofInt i
  | .float x => .float x
  | .str s => .str s
  | .arr items => .list (Value.ofJsonItems items)
  | .obj members => .dict ((orderByKey (Value.ofJsonMembers members)).map fun (k, v) => (.str k, v))

def Value.ofJsonItems : List Json → List Value
  | [] => []
  | x :: rest => Value.ofJson x :: Value.ofJsonItems rest

def Value.ofJsonMembers : List (String × Json) → List (String × Value)
  | [] => []
  | (k, x) :: rest => (k, Value.ofJson x) :: Value.ofJsonMembers rest

end

end ComponentMarkup
