import ComponentMarkup.Text.Blank

/-!
# Searching, splitting and trimming

Occurrences of a text in another are taken from the left and do not overlap. Splitting cuts a text
at them, replacing puts something else in their place, and counting says how many there are.
-/

namespace ComponentMarkup.Text

/-- Where `needle` first occurs, counted in characters from `position` at the start of the text. -/
def findFrom (needle : List Char) (position : Nat) : List Char → Option Nat
  | [] => if needle.isEmpty then some position else none
  | c :: rest =>
    if needle.isPrefixOf (c :: rest) then some position else findFrom needle (position + 1) rest

/-- The first occurrence of a text, as a number of characters. -/
def find? (needle text : List Char) : Option Nat :=
  findFrom needle 0 text

def occursIn (needle text : List Char) : Bool :=
  (find? needle text).isSome

def endsWith (text ending : List Char) : Bool :=
  ending.isSuffixOf text

/-! ## Splitting -/

/-- The pieces of a text between occurrences of the separator `first :: more`, after those in
`pieces`. The pieces and the piece under way are held backwards. -/
def splitOnto (first : Char) (more : List Char) (pieces : List (List Char)) (piece : List Char) :
    List Char → List (List Char)
  | [] => (piece.reverse :: pieces).reverse
  | c :: rest =>
    if (first :: more).isPrefixOf (c :: rest) then
      splitOnto first more (piece.reverse :: pieces) [] (rest.drop more.length)
    else splitOnto first more pieces (c :: piece) rest
termination_by text => text.length

/-- The pieces of a text between the occurrences of a separator. An empty separator does not
split. -/
def split (separator text : List Char) : List (List Char) :=
  match separator with
  | [] => [text]
  | first :: more => splitOnto first more [] [] text

def join (separator : List Char) (pieces : List (List Char)) : List Char :=
  List.intercalate separator pieces

/-! ## Replacing and counting -/

/-- A text with `new` in place of every occurrence of `first :: more`. -/
def replaceEach (first : Char) (more new : List Char) : List Char → List Char
  | [] => []
  | c :: rest =>
    if (first :: more).isPrefixOf (c :: rest) then
      new ++ replaceEach first more new (rest.drop more.length)
    else c :: replaceEach first more new rest
termination_by text => text.length

/-- A text with every occurrence of `old` replaced. The empty text occurs around every character. -/
def replace (old new text : List Char) : List Char :=
  match old with
  | [] => new ++ text.flatMap (· :: new)
  | first :: more => replaceEach first more new text

/-- The number of occurrences of `first :: more`. -/
def countEach (first : Char) (more : List Char) : List Char → Nat
  | [] => 0
  | c :: rest =>
    if (first :: more).isPrefixOf (c :: rest) then countEach first more (rest.drop more.length) + 1
    else countEach first more rest
termination_by text => text.length

/-- The number of occurrences of a text. The empty text occurs around every character. -/
def count (needle text : List Char) : Nat :=
  match needle with
  | [] => text.length + 1
  | first :: more => countEach first more text

/-! ## Blanks -/

/-- A word that has ended, held backwards, in front of those before it. An empty one is no word. -/
def endWord (words : List (List Char)) (word : List Char) : List (List Char) :=
  if word.isEmpty then words else word.reverse :: words

/-- The words of a text, after those in `words`. The words and the word under way are held
backwards. -/
def wordsOnto (words : List (List Char)) (word : List Char) : List Char → List (List Char)
  | [] => (endWord words word).reverse
  | c :: rest =>
    if isBlank c then wordsOnto (endWord words word) [] rest else wordsOnto words (c :: word) rest

/-- The words of a text: its longest runs without blanks. -/
def words (text : List Char) : List (List Char) :=
  wordsOnto [] [] text

/-- A text without its leading characters of a kind. -/
def trimStart (p : Char → Bool) (text : List Char) : List Char :=
  text.dropWhile p

/-- A text without its trailing characters of a kind. -/
def trimEnd (p : Char → Bool) (text : List Char) : List Char :=
  (text.reverse.dropWhile p).reverse

/-- A text without the blanks around it. -/
def trim (text : List Char) : List Char :=
  trimEnd isBlank (trimStart isBlank text)

end ComponentMarkup.Text
