import ComponentMarkup.Value.Basic

/-!
# Comparing values

Three comparisons live here. `Value.equal` is the equality of the language, where booleans, integers
and floats are equal as numbers. `Value.compare?` is its order, which is defined between numbers,
between strings and between sequences of one kind. `Value.same` is equality of structure, where
values of different kinds differ.
-/

namespace ComponentMarkup

/-- What booleans, integers and floats have in common. -/
inductive Number where
  | int (value : Int64)
  | float (value : Float)
deriving Repr

namespace Number

def toFloat : Number → Float
  | .int i => i.toFloat
  | .float x => x

/-- Integers are compared exactly, all other pairs as doubles. -/
def equal : Number → Number → Bool
  | .int a, .int b => a == b
  | a, b => a.toFloat == b.toFloat

/-- The order of doubles, which is undefined if one of them is no number. -/
def compareFloat? (a b : Float) : Option Ordering :=
  if a < b then some .lt else if a == b then some .eq else if b < a then some .gt else none

/-- The order of numbers. Integers are compared exactly, all other pairs as doubles. -/
def compare? : Number → Number → Option Ordering
  | .int a, .int b => some (compare a.toInt b.toInt)
  | a, b => compareFloat? a.toFloat b.toFloat

end Number

def Value.number? : Value → Option Number
  | .bool b => some (.int (if b then 1 else 0))
  | .int i => some (.int i)
  | .float x => some (.float x)
  | _ => .none

/-! ## Equality of structure -/

mutual

/-- Values of the same kind and structure. Entries, members and properties may come in any order. -/
def Value.same (v other : Value) : Bool :=
  match v with
  | .none => match other with
    | .none => true
    | _ => false
  | .bool a => match other with
    | .bool b => a == b
    | _ => false
  | .int a => match other with
    | .int b => a == b
    | _ => false
  | .float a => match other with
    | .float b => a == b
    | _ => false
  | .str a => match other with
    | .str b => a == b
    | _ => false
  | .list as => match other with
    | .list bs => Value.sameItems as bs
    | _ => false
  | .tuple as => match other with
    | .tuple bs => Value.sameItems as bs
    | _ => false
  | .dict as => match other with
    | .dict bs => as.length == bs.length && Value.sameEntries as bs
    | _ => false
  | .builtin f => match other with
    | .builtin g => f == g
    | _ => false
  | .constructor i _ _ => match other with
    | .constructor j _ _ => i == j
    | _ => false
  | .method i _ _ => match other with
    | .method j _ _ => i == j
    | _ => false
  | .native i _ => match other with
    | .native j _ => i == j
    | _ => false
  | .module _ m as => match other with
    | .module _ n bs => m == n && as.length == bs.length && Value.sameMembers as bs
    | _ => false
  | .component m n as => match other with
    | .component m' n' bs => m == m' && n == n' && as.length == bs.length && Value.sameMembers as bs
    | _ => false
termination_by structural v

def Value.sameItems : List Value → List Value → Bool
  | [], [] => true
  | a :: as, b :: bs => a.same b && Value.sameItems as bs
  | _, _ => false
termination_by structural x => x

/-- Every entry of the first dictionary is found in the second. -/
def Value.sameEntries : List (Key × Value) → List (Key × Value) → Bool
  | [], _ => true
  | (k, a) :: as, bs =>
    (match bs.lookup k with
      | some b => a.same b
      | .none => false) && Value.sameEntries as bs
termination_by structural x => x

/-- Every member of the first collection is found in the second. -/
def Value.sameMembers : List (String × Value) → List (String × Value) → Bool
  | [], _ => true
  | (k, a) :: as, bs =>
    (match bs.lookup k with
      | some b => a.same b
      | .none => false) && Value.sameMembers as bs
termination_by structural x => x

end

/-! ## Equality of the language -/

/-- Equality of values that are not both of one structured kind: as numbers. -/
def Value.equalNumbers (a b : Value) : Bool :=
  match a.number?, b.number? with
  | some x, some y => x.equal y
  | _, _ => false

mutual

/-- The equality `==`. Components are compared by structure, functions and modules by identity. -/
def Value.equal (v other : Value) : Bool :=
  match v with
  | .none => match other with
    | .none => true
    | _ => false
  | .str a => match other with
    | .str b => a == b
    | _ => false
  | .list as => match other with
    | .list bs => Value.equalItems as bs
    | _ => false
  | .tuple as => match other with
    | .tuple bs => Value.equalItems as bs
    | _ => false
  | .dict as => match other with
    | .dict bs => as.length == bs.length && Value.equalEntries as bs
    | _ => false
  | .module i _ _ => match other with
    | .module j _ _ => i == j
    | _ => false
  | .bool a => (Value.bool a).equalNumbers other
  | .int a => (Value.int a).equalNumbers other
  | .float a => (Value.float a).equalNumbers other
  | .builtin f => (Value.builtin f).same other
  | .constructor i m n => (Value.constructor i m n).same other
  | .method i r m => (Value.method i r m).same other
  | .native i n => (Value.native i n).same other
  | .component m n ps => (Value.component m n ps).same other
termination_by structural v

def Value.equalItems : List Value → List Value → Bool
  | [], [] => true
  | a :: as, b :: bs => a.equal b && Value.equalItems as bs
  | _, _ => false
termination_by structural x => x

/-- Every entry of the first dictionary has an equal one in the second. -/
def Value.equalEntries : List (Key × Value) → List (Key × Value) → Bool
  | [], _ => true
  | (k, a) :: as, bs =>
    (match bs.lookup k with
      | some b => a.equal b
      | .none => false) && Value.equalEntries as bs
termination_by structural x => x

end

/-! ## Order -/

/-- The order of strings, by code points. -/
def compareStrings (a b : String) : Ordering :=
  if a < b then .lt else if a == b then .eq else .gt

mutual

/-- The order `<`, where it is defined. -/
def Value.compare? (v other : Value) : Option Ordering :=
  match v with
  | .str a => match other with
    | .str b => some (compareStrings a b)
    | _ => .none
  | .list as => match other with
    | .list bs => Value.compareItems? as bs
    | _ => .none
  | .tuple as => match other with
    | .tuple bs => Value.compareItems? as bs
    | _ => .none
  | v =>
    match v.number?, other.number? with
    | some x, some y => x.compare? y
    | _, _ => .none
termination_by structural v

/-- The order of sequences: that of the first items that are not equal, else that of the lengths. -/
def Value.compareItems? : List Value → List Value → Option Ordering
  | [], [] => some .eq
  | [], _ :: _ => some .lt
  | _ :: _, [] => some .gt
  | a :: as, b :: bs => if a.equal b then Value.compareItems? as bs else a.compare? b
termination_by structural x => x

end

/-- The test `is`: small values are compared by content, functions, modules and components by
equality, and two collections are never the same. -/
def Value.identical : Value → Value → Bool
  | .none, .none => true
  | .bool a, .bool b => a == b
  | .int a, .int b => a == b
  | .str a, .str b => a == b
  | a, b =>
    match a.type, b.type with
    | .function, .function => a.equal b
    | .module, .module => a.equal b
    | .component, .component => a.equal b
    | _, _ => false

end ComponentMarkup
