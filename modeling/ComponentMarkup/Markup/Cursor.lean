import ComponentMarkup.Position.Span
import ComponentMarkup.Text.Blank
import ComponentMarkup.Text.Escape

/-!
# Cursors

A cursor is a place in a text: the byte offset and the characters from there on. Every step of
reading gives a new cursor, so going back is keeping the old one.
-/

namespace ComponentMarkup

/-- A place in a text. -/
structure Cursor where
  offset : Nat
  rest : List Char
deriving Repr

namespace Cursor

def ofText (text : List Char) : Cursor :=
  ⟨0, text⟩

/-- The place at a byte offset of a text, if a character starts there. -/
def seek? (text : List Char) (offset : Nat) : Option Cursor :=
  (Text.dropBytes? offset text).map (⟨offset, ·⟩)

def atEnd (c : Cursor) : Bool :=
  c.rest.isEmpty

def peek? (c : Cursor) : Option Char :=
  c.rest.head?

/-- The place after the next character, or the same place at the end. -/
def advance (c : Cursor) : Cursor :=
  match c.rest with
  | [] => c
  | x :: rest => ⟨c.offset + x.utf8Size, rest⟩

/-- The text goes on with the given characters. -/
def startsWith (c : Cursor) (text : List Char) : Bool :=
  text.isPrefixOf c.rest

/-- The place after the given characters, if the text goes on with them. -/
def consume? (c : Cursor) (text : List Char) : Option Cursor :=
  if c.startsWith text then some ⟨c.offset + Text.byteLength text, c.rest.drop text.length⟩
  else none

/-- The longest run of characters with a property, and the place after it. -/
def takeWhile (c : Cursor) (p : Char → Bool) : List Char × Cursor :=
  let run := c.rest.takeWhile p
  (run, ⟨c.offset + Text.byteLength run, c.rest.dropWhile p⟩)

/-- The place after all blanks. -/
def skipBlanks (c : Cursor) : Cursor :=
  (c.takeWhile Text.isBlank).2

/-- A letter, with which the name of a tag or an attribute begins. -/
def isNameStart (x : Char) : Bool :=
  x.isAlpha

/-- A character that may stand in the name of a tag or an attribute. -/
def isNameChar (x : Char) : Bool :=
  x.isAlphanum || x == '.' || x == '_' || x == '-'

/-- The name of a tag or an attribute, and the place after it. -/
def readName? (c : Cursor) : Option (List Char × Cursor) :=
  if c.peek?.any isNameStart then some (c.takeWhile isNameChar) else none

/-- The span from an offset up to the cursor. -/
def spanFrom (c : Cursor) (start : Nat) : Span :=
  ⟨start, c.offset⟩

/-- The span of the next character, which is empty at the end. -/
def here (c : Cursor) : Span :=
  ⟨c.offset, c.offset + c.peek?.elim 0 Char.utf8Size⟩

/-- The offset at which the text ends. -/
def stop (c : Cursor) : Nat :=
  c.offset + Text.byteLength c.rest

end Cursor

/-- What is found at a place of a text: a character, or nothing at the end. -/
def describeFound : Option Char → String
  | some x => String.ofList (Text.showChar x)
  | none => "end of input"

end ComponentMarkup
