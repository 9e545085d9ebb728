import ComponentMarkup.Decimal.Scaled
import ComponentMarkup.Json.Basic
import ComponentMarkup.Text.Quoted

/-!
# Reading JSON

A text is read into a `Draft`: the tree of the value as far as the text is JSON, with the place
marked where it stops being JSON. A reader of drafts that walks through them in order therefore
notices a mistake of shape or a mistake of syntax, whichever comes first in the text.

A string whose escapes denote no text, and a number beyond all doubles, are well-formed but have no
value. They matter only to a reader that asks for their value.
-/

namespace ComponentMarkup

/-- A JSON value as far as it could be read. -/
inductive Draft where
  /-- From here on the text is not JSON. -/
  | broken
  | null
  | bool (value : Bool)
  | int (value : Int)
  | float (value : Float)
  /-- A number too large for a double. -/
  | outOfRange
  | str (value : String)
  /-- A string with half a surrogate pair. -/
  | illString
  /-- The items read; a broken one is the last. -/
  | arr (items : List Draft)
  /-- The members read. A broken key has a broken value. -/
  | obj (members : List (Draft × Draft))
deriving Inhabited

namespace Draft

/-! ## Scalars -/

/-- JSON separates its tokens with spaces, tabs and line breaks. -/
def isSpace (c : Char) : Bool :=
  c = ' ' || c = '\n' || c = '\t' || c = '\r'

/-- A text without the space in front of it. -/
def skipSpace (text : List Char) : List Char :=
  text.dropWhile isSpace

/-- The digits of an exponent after its mark, or nothing if there is no exponent. The exponent of a
number is broken if its mark is not followed by a digit. -/
def exponent? (text : List Char) : Option (Option Int × List Char) :=
  match text with
  | mark :: rest =>
    if mark = 'e' ∨ mark = 'E' then
      let (negative, rest) := Decimal.readSign rest
      let digits := rest.takeWhile Char.isDigit
      if digits.isEmpty then none
      else
        let value : Int := Decimal.digitsValue digits
        some (some (if negative then -value else value), rest.dropWhile Char.isDigit)
    else some (none, text)
  | [] => some (none, [])

/-- The fraction of a number after its point, or nothing if there is no point. -/
def fraction? (text : List Char) : Option (Option (List Char) × List Char) :=
  match text with
  | '.' :: rest =>
    let digits := rest.takeWhile Char.isDigit
    if digits.isEmpty then none else some (some digits, rest.dropWhile Char.isDigit)
  | _ => some (none, text)

/-- The double for collected digits, if there is one. -/
def ofFigures (negative : Bool) (figures : Decimal.Figures) : Draft :=
  match figures.toFloat? negative with
  | some value => .float value
  | none => .outOfRange

/-- The number made of its parts. A whole number is an integer if 64 bits hold it, with a sign if it
is negative; the negative zero is none. -/
def ofNumber (negative : Bool) (whole : List Char) (fraction : Option (List Char))
    (exponent : Option Int) : Draft :=
  let figures := Decimal.Figures.collectWhole 0 whole
  let value := figures.significand
  match fraction, exponent with
  | none, none =>
    if figures.exponent ≠ 0 then ofFigures negative figures
    else if !negative then .int value
    else if value ≠ 0 ∧ value ≤ Nat.pow 2 63 then .int (-value)
    else ofFigures negative figures
  | _, _ =>
    let figures := figures.collectFraction (fraction.getD [])
    ofFigures negative ⟨figures.significand, figures.exponent + exponent.getD 0⟩

/-- A number. It has no leading zeros. -/
def number (text : List Char) : Draft × List Char :=
  let (negative, text) :=
    match text with
    | '-' :: rest => (true, rest)
    | _ => (false, text)
  let whole := text.takeWhile Char.isDigit
  if whole.isEmpty || (whole.head? == some '0' && whole.length != 1) then (.broken, [])
  else
    match fraction? (text.dropWhile Char.isDigit) with
    | none => (.broken, [])
    | some (fraction, text) =>
      match exponent? text with
      | none => (.broken, [])
      | some (exponent, text) => (ofNumber negative whole fraction exponent, text)

/-- What the escapes of one character stand for in a string. -/
def simpleEscape? : Char → Option Char
  | '"' => some '"'
  | '\\' => some '\\'
  | '/' => some '/'
  | 'b' => some '\x08'
  | 'f' => some '\x0c'
  | 'n' => some '\n'
  | 'r' => some '\r'
  | 't' => some '\t'
  | _ => none

/-- The code units of a string up to its closing quote, and what follows. A string breaks at a
control character or an unknown escape. -/
def units? : List Char → Option (List Nat × List Char)
  | [] => none
  | c :: rest =>
    if c = '"' then some ([], rest)
    else if c.toNat < 0x20 then none
    else if c = '\\' then
      match rest with
      | [] => none
      | kind :: rest =>
        match simpleEscape? kind with
        | some char => (units? rest).map fun (units, rest) => (char.toNat :: units, rest)
        | none =>
          match kind, rest with
          | 'u', a :: b :: c :: d :: rest =>
            match Text.hexValue? [a, b, c, d] with
            | some unit => (units? rest).map fun (units, rest) => (unit :: units, rest)
            | none => none
          | _, _ => none
    else (units? rest).map fun (units, rest) => (c.toNat :: units, rest)

/-- The text of code units, where two halves of a surrogate pair make one character. -/
def decodeUnits? : List Nat → Option (List Char)
  | [] => some []
  | unit :: rest =>
    if 0xD800 ≤ unit ∧ unit < 0xDC00 then
      match rest with
      | low :: rest =>
        if 0xDC00 ≤ low ∧ low < 0xE000 then
          let code := 0x10000 + (unit - 0xD800) * 0x400 + (low - 0xDC00)
          (decodeUnits? rest).map (Char.ofNat code :: ·)
        else none
      | [] => none
    else if 0xDC00 ≤ unit ∧ unit < 0xE000 then none
    else (decodeUnits? rest).map (Char.ofNat unit :: ·)

/-- A string after its opening quote. -/
def string (text : List Char) : Draft × List Char :=
  match units? text with
  | none => (.broken, [])
  | some (units, rest) =>
    match decodeUnits? units with
    | some chars => (.str (String.ofList chars), rest)
    | none => (.illString, rest)

/-- A literal word. -/
def word (spelling : String) (value : Draft) (text : List Char) : Draft × List Char :=
  if spelling.toList.isPrefixOf text then (value, text.drop spelling.length) else (.broken, [])

/-! ## Arrays and objects -/

/-- Parts with commas between them, through the closing bracket. Each part after the first follows a
comma, so the number of parts is bounded by the length of the text. -/
def sequence {α : Type} (closing : Char) (broken : α) (part : List Char → α × List Char) :
    Nat → List Char → List α × List Char
  | 0, _ => ([broken], [])
  | bound + 1, text =>
    let (first, rest) := part text
    match skipSpace rest with
    | [] => ([first, broken], [])
    | c :: rest =>
      if c = ',' then
        let (more, rest) := sequence closing broken part bound rest
        (first :: more, rest)
      else if c = closing then ([first], rest)
      else ([first, broken], [])

/-- What stands after an opening bracket, through the closing one. -/
def bracketed {α : Type} (closing : Char) (broken : α) (part : List Char → α × List Char)
    (text : List Char) : List α × List Char :=
  match skipSpace text with
  | [] => ([broken], [])
  | c :: rest =>
    if c = closing then ([], rest) else sequence closing broken part (text.length + 1) text

def member (value : List Char → Draft × List Char) (text : List Char) :
    (Draft × Draft) × List Char :=
  match skipSpace text with
  | '"' :: rest =>
    let (key, rest) := string rest
    match skipSpace rest with
    | ':' :: rest =>
      let (item, rest) := value rest
      ((key, item), rest)
    | _ => ((key, .broken), [])
  | _ => ((.broken, .broken), [])

/-- A value, after any space. Each bracket around a value takes one of the bound on how deep values
are nested, so the length of the text is enough. -/
def value : Nat → List Char → Draft × List Char
  | 0, _ => (.broken, [])
  | depth + 1, text =>
    match skipSpace text with
    | [] => (.broken, [])
    | c :: rest =>
      if c = '"' then string rest
      else if c = '-' || c.isDigit then number (c :: rest)
      else if c = 'n' then word "null" .null (c :: rest)
      else if c = 't' then word "true" (.bool true) (c :: rest)
      else if c = 'f' then word "false" (.bool false) (c :: rest)
      else if c = '[' then
        let (items, rest) := bracketed ']' .broken (value depth) rest
        (.arr items, rest)
      else if c = '\x7b' then
        let (members, rest) := bracketed '\x7d' (.broken, .broken) (member (value depth)) rest
        (.obj members, rest)
      else (.broken, [])

/-- Read a text. Anything but space after the value is returned with it. -/
def read (text : List Char) : Draft × List Char :=
  let (draft, rest) := value (text.length + 1) text
  (draft, skipSpace rest)

/-! ## Values -/

mutual

/-- The value of a draft that is whole and has one. -/
def toJson? : Draft → Option Json
  | .broken => none
  | .null => some .null
  | .bool b => some (.bool b)
  | .int i => some (.int i)
  | .float x => some (.float x)
  | .outOfRange => none
  | .str s => some (.str s)
  | .illString => none
  | .arr xs => (itemsToJson? xs).map .arr
  | .obj ms => (membersToJson? ms).map .obj

def itemsToJson? : List Draft → Option (List Json)
  | [] => some []
  | x :: rest =>
    match toJson? x, itemsToJson? rest with
    | some x, some rest => some (x :: rest)
    | _, _ => none

def membersToJson? : List (Draft × Draft) → Option (List (String × Json))
  | [] => some []
  | (k, x) :: rest =>
    match k, toJson? x, membersToJson? rest with
    | .str k, some x, some rest => some ((k, x) :: rest)
    | _, _, _ => none

end

mutual

def ofJson : Json → Draft
  | .null => .null
  | .bool b => .bool b
  | .int i => .int i
  | .float x => .float x
  | .str s => .str s
  | .arr xs => .arr (ofItems xs)
  | .obj ms => .obj (ofMembers ms)

def ofItems : List Json → List Draft
  | [] => []
  | x :: rest => ofJson x :: ofItems rest

def ofMembers : List (String × Json) → List (Draft × Draft)
  | [] => []
  | (k, x) :: rest => (.str k, ofJson x) :: ofMembers rest

end

end Draft

/-- Read a whole text as one JSON value. -/
def Json.read? (text : List Char) : Option Json :=
  match Draft.read text with
  | (draft, []) => draft.toJson?
  | (_, _ :: _) => none

end ComponentMarkup
