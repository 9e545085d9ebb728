import ComponentMarkup.Element.Basic
import ComponentMarkup.Expr.Fill
import ComponentMarkup.Expr.Parser
import ComponentMarkup.Position.Splice
import ComponentMarkup.Tag.Vocabulary
import ComponentMarkup.Template.Dedent
import ComponentMarkup.Template.Error
import ComponentMarkup.Template.Fragment

/-!
# Lowering

An element becomes a call of the constructor that its tag resolves to, with its content as the
argument `children` and one argument for each attribute.

The source of an expression is read after each element nested in it is replaced by a name, its
placeholder, in parentheses; once the expression is read, the placeholders are filled with what the
elements became. A source map of the text that is read leads errors back to the template.
-/

namespace ComponentMarkup

/-- A computation that may fail and that numbers placeholders. The numbers given out before a
failure stay given out. -/
abbrev Lowering := ExceptT CompileError (StateM Nat)

/-- What elements are lowered with. -/
structure LoweringContext where
  /-- What all placeholders begin with. -/
  stem : List Char
  vocabulary : Vocabulary

namespace Lowering

/-! ## Placeholders -/

/-- What placeholders begin with, unless the template contains it. -/
def baseStem : List Char :=
  "__htexpr_".toList

/-- A stem with underscores put in front of it until the template does not contain it, at most as
many as a bound says. -/
def stemFrom (template : List Char) : Nat → List Char → List Char
  | 0, stem => stem
  | bound + 1, stem =>
    if Text.occursIn stem template then stemFrom template bound ('_' :: stem) else stem

/-- A stem that the template does not contain. A stem longer than the template is none of its parts,
so the length of the template bounds the search. -/
def stemFor (template : List Char) : List Char :=
  stemFrom template (template.length + 1) baseStem

/-- The next placeholder. -/
def placeholder (ctx : LoweringContext) : Lowering String := do
  let number ← get
  set (number + 1)
  return String.ofList (ctx.stem ++ (toString number).toList)

/-! ## Pieces of expressions -/

/-- A piece of the source of an expression. -/
inductive Piece where
  /-- Text of the template that starts at an offset. -/
  | copy (text : List Char) (start : Nat)
  /-- A placeholder for the element at a span, and what the element became. -/
  | gap (name : String) (span : Span) (filling : Expr)

namespace Piece

/-- What is read for a piece. The parentheses around a placeholder keep it apart from names and
keywords beside it. -/
def text : Piece → List Char
  | .copy text _ => text
  | .gap name _ _ => '(' :: name.toList ++ [')']

/-- The placeholder of a piece with what fills it. -/
def filling? : Piece → Option (String × Expr)
  | .copy .. => none
  | .gap name _ filling => some (name, filling)

end Piece

/-- Append the parts of a copied text that no cut covers. The text starts at `offset` among all
pieces and at `start` in the template. -/
def spliceCopy (cuts : List Span) (offset : Nat) (text : List Char) (start : Nat) (s : Splice) :
    Splice :=
  (Dedent.keep ⟨offset, offset + Text.byteLength text⟩ cuts).foldl
    (fun s kept =>
      let part : Span := ⟨kept.start - offset, kept.stop - offset⟩
      s.pushCopy (part.slice text) (start + part.start))
    s

/-- Append pieces, of which the first starts at `offset`, without the cuts. -/
def splicePieces (cuts : List Span) (offset : Nat) (s : Splice) : List Piece → Splice
  | [] => s
  | .copy text start :: rest =>
    splicePieces cuts (offset + Text.byteLength text) (spliceCopy cuts offset text start s) rest
  | .gap name span filling :: rest =>
    let text := (Piece.gap name span filling).text
    splicePieces cuts (offset + Text.byteLength text) (s.pushReplacement text span) rest

/-- The text that is read for an expression. The items of a list get brackets around them. -/
def spliceExpr (kind : FragmentKind) (pieces : List Piece) : Splice :=
  let cuts := Dedent.cuts (pieces.flatMap Piece.text)
  match kind with
  | .scalar => splicePieces cuts 0 .empty pieces
  | .list => (splicePieces cuts 0 (Splice.empty.pushText ['[']) pieces).pushText [']']

/-- The part of the template that an error in the text read for an expression is about. -/
def errorSpan (map : SourceMap) (span : Span) (offset : Nat) : Span :=
  let start := (map.sourceOffset? offset).getD span.start
  ⟨start, if start < span.stop then start + 1 else start⟩

/-- Read an expression from its pieces and fill its placeholders. -/
def readPieces (kind : FragmentKind) (span : Span) (pieces : List Piece) :
    Except CompileError Fragment :=
  let spliced := spliceExpr kind pieces
  match Expr.parse spliced.text with
  | .ok e => .ok ⟨kind, (e.fill.run (pieces.filterMap Piece.filling?)).1⟩
  | .error e => .error ⟨.invalidExpression e.fault, errorSpan spliced.map span e.offset⟩

/-! ## Elements -/

/-- Where the constructor for the tag of an element is found. -/
def resolve (ctx : LoweringContext) (tag : String) (span : Span) :
    Except CompileError ConstructorPath :=
  match ctx.vocabulary.chain.resolve? tag with
  | some path => .ok path
  | none => .error ⟨.unknownTag tag, span⟩

mutual

/-- The call that an element becomes. -/
def element (ctx : LoweringContext) (e : Element) : Lowering Expr :=
  match e with
  | ⟨tag, attrs, content, span⟩ => do
    if tag.isEmpty then
      throw ⟨.noTagName, span⟩
    let path ← ExceptT.mk (pure (resolve ctx tag span))
    let children ← optionalContent ctx content
    let args ← attributes ctx tag ["children"] attrs
    return .call path.callee
      (.keyword "children" (Fragment.merge children).node :: args)

/-- The fragments of content, of which a self-closing element has none. -/
def optionalContent (ctx : LoweringContext) (content : Option (List ContentItem)) :
    Lowering (List Fragment) :=
  match content with
  | none => return []
  | some items => contentItems ctx items

def contentItems (ctx : LoweringContext) (items : List ContentItem) : Lowering (List Fragment) :=
  match items with
  | [] => return []
  | item :: rest => do
    let fragment ← contentItem ctx item
    return fragment :: (← contentItems ctx rest)

def contentItem (ctx : LoweringContext) (item : ContentItem) : Lowering Fragment :=
  match item with
  | .element e => do return ⟨.scalar, ← element ctx e⟩
  | .literal text => return ⟨.scalar, .str text⟩
  | .expr source => expression ctx .scalar source
  | .spread source => expression ctx .list source

/-- The arguments that attributes become. `seen` lists the arguments that the call has already. -/
def attributes (ctx : LoweringContext) (tag : String) (seen : List String)
    (attrs : List Attribute) : Lowering (List Argument) :=
  match attrs with
  | [] => return []
  | ⟨name, value, span⟩ :: rest => do
    let argument := ctx.vocabulary.arguments.argumentFor name
    if seen.contains argument then
      throw ⟨.duplicateArgument tag argument, span⟩
    let value ← attributeValue ctx value
    return .keyword argument value :: (← attributes ctx tag (argument :: seen) rest)

def attributeValue (ctx : LoweringContext) (value : AttributeValue) : Lowering Expr :=
  match value with
  | .literal text => return .str text
  | .expr source => do return (← expression ctx .scalar source).node
  | .spread source => do return (← expression ctx .list source).node

def expression (ctx : LoweringContext) (kind : FragmentKind) (source : EmbeddedExpr) :
    Lowering Fragment :=
  match source with
  | ⟨span, segments⟩ => do
    if segments.isEmpty then
      throw ⟨.noSegments, span⟩
    let parts ← pieces ctx segments
    ExceptT.mk (pure (readPieces kind span parts))

/-- The pieces of an expression. A nested element is lowered before it gets its placeholder. -/
def pieces (ctx : LoweringContext) (segments : List Segment) : Lowering (List Piece) :=
  match segments with
  | [] => return []
  | ⟨text, span, none⟩ :: rest => do return .copy text span.start :: (← pieces ctx rest)
  | ⟨_, span, some e⟩ :: rest => do
    let filling ← element ctx e
    let name ← placeholder ctx
    return .gap name span filling :: (← pieces ctx rest)

end

def contextFor (template : List Char) (vocabulary : Vocabulary) : LoweringContext :=
  ⟨stemFor template, vocabulary⟩

end Lowering

/-- The call that the root element of a template becomes. -/
def Element.lower (template : List Char) (vocabulary : Vocabulary) (e : Element) :
    Except CompileError Expr :=
  ((Lowering.element (Lowering.contextFor template vocabulary) e).run.run 0).1

end ComponentMarkup
