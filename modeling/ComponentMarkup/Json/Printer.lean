import ComponentMarkup.Decimal.Layout
import ComponentMarkup.Json.Basic
import ComponentMarkup.Text.Escape
import ComponentMarkup.Text.Search

/-!
# Writing JSON

Values are written without space between tokens. Only the quote, the backslash and control
characters are escaped. A double always has a point or an exponent, so that it is not taken for an
integer; those that are no numbers are written as null.
-/

namespace ComponentMarkup.Json

/-- The letter that stands for a character after a backslash. -/
def shortEscape? : Char → Option Char
  | '"' => some '"'
  | '\\' => some '\\'
  | '\x08' => some 'b'
  | '\x0c' => some 'f'
  | '\n' => some 'n'
  | '\r' => some 'r'
  | '\t' => some 't'
  | _ => none

/-- The code of a control character in four digits. -/
def controlCode (n : Nat) : List Char :=
  let digits := Text.hexDigits n
  List.replicate (4 - digits.length) '0' ++ digits

/-- A character as it stands in a string. -/
def escapeChar (c : Char) : List Char :=
  match shortEscape? c with
  | some letter => ['\\', letter]
  | none => if c.toNat < 0x20 then '\\' :: 'u' :: controlCode c.toNat else [c]

def quoted (s : String) : List Char :=
  '"' :: s.toList.flatMap escapeChar ++ ['"']

/-- Texts between brackets, with commas between them. -/
def bracketed (opening closing : Char) (parts : List (List Char)) : List Char :=
  opening :: Text.join [','] parts ++ [closing]

mutual

def chars : Json → List Char
  | .null => "null".toList
  | .bool b => if b then "true".toList else "false".toList
  | .int i => (toString i).toList
  | .float x => ((Decimal.compact? x).getD "null").toList
  | .str s => quoted s
  | .arr xs => bracketed '[' ']' (itemTexts xs)
  | .obj ms => bracketed '\x7b' '\x7d' (memberTexts ms)

def itemTexts : List Json → List (List Char)
  | [] => []
  | x :: rest => chars x :: itemTexts rest

def memberTexts : List (String × Json) → List (List Char)
  | [] => []
  | (k, x) :: rest => (quoted k ++ ':' :: chars x) :: memberTexts rest

end

def render (json : Json) : String :=
  String.ofList json.chars

end ComponentMarkup.Json
