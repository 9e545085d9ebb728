/-!
# JSON values

Numbers are integers or doubles, which are kept apart. The members of an object stand in the order
in which they were written, with repetitions.
-/

namespace ComponentMarkup

inductive Json where
  | null
  | bool (value : Bool)
  | int (value : Int)
  | float (value : Float)
  | str (value : String)
  | arr (items : List Json)
  | obj (members : List (String × Json))
deriving Inhabited

namespace Json

/-- The member of an object with a given key; of several, the last. -/
def get? (key : String) : Json → Option Json
  | .obj members => members.reverse.lookup key
  | _ => none

end Json

end ComponentMarkup
