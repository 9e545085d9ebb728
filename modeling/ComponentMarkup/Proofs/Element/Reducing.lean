import ComponentMarkup.Proofs.Markup.Parsing
import ComponentMarkup.Proofs.Position.Boundaries
import Mathlib.Data.List.Forall2

/-!
# Elements of recognized texts

A tree whose text is recognized reduces to the element that the text stands for, and the index of nested
elements ends as it began: every expression takes exactly the elements that were recorded for it. The
segments of each expression of the element, at any depth, are runs of the template around nested
elements, and their cells are balanced. The expressions of the element are those of the tree, in order,
and the elements nested in each of them are those of its node. All spans of the element are whole.
-/

namespace ComponentMarkup

open Text (byteLength)

variable {template t v v' : List Char} {nodes : List Node} {o : Nat} {index : NestedIndex}
  {nested : List NestedElement} {node tree : Node} {e : Element}

/-! ## The expressions of an element -/

mutual

/-- All expressions of an element, at any depth. -/
def Element.sources (e : Element) : List EmbeddedExpr :=
  match e with
  | ⟨_, attrs, content, _⟩ => Attribute.sourcesOfAll attrs ++ ContentItem.sourcesOfOptional content

def Attribute.sourcesOfAll (attrs : List Attribute) : List EmbeddedExpr :=
  match attrs with
  | [] => []
  | ⟨_, value, _⟩ :: rest => value.sources ++ Attribute.sourcesOfAll rest

def AttributeValue.sources (value : AttributeValue) : List EmbeddedExpr :=
  match value with
  | .literal _ => []
  | .expr source => source.sources
  | .spread source => source.sources

def ContentItem.sourcesOfOptional (content : Option (List ContentItem)) : List EmbeddedExpr :=
  match content with
  | none => []
  | some items => ContentItem.sourcesOfAll items

def ContentItem.sourcesOfAll (items : List ContentItem) : List EmbeddedExpr :=
  match items with
  | [] => []
  | item :: rest => item.sources ++ ContentItem.sourcesOfAll rest

def ContentItem.sources (item : ContentItem) : List EmbeddedExpr :=
  match item with
  | .element e => e.sources
  | .literal _ => []
  | .expr source => source.sources
  | .spread source => source.sources

/-- An expression and all expressions of the elements nested in it. -/
def EmbeddedExpr.sources (source : EmbeddedExpr) : List EmbeddedExpr :=
  match source with
  | ⟨span, segments⟩ => ⟨span, segments⟩ :: Segment.sourcesOfAll segments

def Segment.sourcesOfAll (segments : List Segment) : List EmbeddedExpr :=
  match segments with
  | [] => []
  | ⟨_, _, none⟩ :: rest => Segment.sourcesOfAll rest
  | ⟨_, _, some e⟩ :: rest => e.sources ++ Segment.sourcesOfAll rest

end

/-- All expressions of a part. -/
def Element.Part.sources : Part → List EmbeddedExpr
  | .element e => e.sources
  | .attributes attrs => Attribute.sourcesOfAll attrs
  | .value v => v.sources
  | .content items? => ContentItem.sourcesOfOptional items?
  | .items is => ContentItem.sourcesOfAll is
  | .item i => i.sources
  | .source _ inner => inner.sources
  | .segments ss => Segment.sourcesOfAll ss

/-! ## Elements in an element -/

mutual

/-- An element and all elements in it. -/
def Element.elements (e : Element) : List Element :=
  match e with
  | ⟨tag, attrs, content, span⟩ => ⟨tag, attrs, content, span⟩ ::
    (ContentItem.elementsOfOptional content ++ Attribute.elementsOfAll attrs)

def ContentItem.elementsOfOptional (content : Option (List ContentItem)) : List Element :=
  match content with
  | none => []
  | some items => ContentItem.elementsOfAll items

def ContentItem.elementsOfAll (items : List ContentItem) : List Element :=
  match items with
  | [] => []
  | item :: rest => item.elements ++ ContentItem.elementsOfAll rest

def ContentItem.elements (item : ContentItem) : List Element :=
  match item with
  | .element e => e.elements
  | .literal _ => []
  | .expr source => source.elements
  | .spread source => source.elements

def Attribute.elementsOfAll (attrs : List Attribute) : List Element :=
  match attrs with
  | [] => []
  | ⟨_, value, _⟩ :: rest => value.elements ++ Attribute.elementsOfAll rest

def AttributeValue.elements (value : AttributeValue) : List Element :=
  match value with
  | .literal _ => []
  | .expr source => source.elements
  | .spread source => source.elements

def EmbeddedExpr.elements (source : EmbeddedExpr) : List Element :=
  match source with
  | ⟨_, segments⟩ => Segment.elementsOfAll segments

def Segment.elementsOfAll (segments : List Segment) : List Element :=
  match segments with
  | [] => []
  | ⟨_, _, none⟩ :: rest => Segment.elementsOfAll rest
  | ⟨_, _, some e⟩ :: rest => e.elements ++ Segment.elementsOfAll rest

end

/-- All elements in a part. -/
def Element.Part.elements : Part → List Element
  | .element e => e.elements
  | .attributes attrs => Attribute.elementsOfAll attrs
  | .value v => v.elements
  | .content items? => ContentItem.elementsOfOptional items?
  | .items is => ContentItem.elementsOfAll is
  | .item i => i.elements
  | .source _ inner => inner.elements
  | .segments ss => Segment.elementsOfAll ss

/-! ## What a template gives -/

/-- The source of an expression as a template gives it. -/
structure EmbeddedExpr.IsFrom (template : List Char) (source : EmbeddedExpr) : Prop where
  nonempty : source.segments ≠ []
  alternate : Alternate template source.segments
  balanced : Balanced source.cells

/-! ## The expressions of a tree -/

namespace Node

/-- The expression that a node puts into the markup around it. A key and a value between braces are
one expression together. -/
def embeds (node : Node) : List Node :=
  match node.rule with
  | .dictShorthand => [node]
  | .exprValue | .exprListValue | .contentExpr | .contentExprList =>
    node.children.filter (·.rule == .expr)
  | _ => []

mutual

/-- All expressions in a tree, at any depth, in the order of their nodes. -/
def embedded (node : Node) : List Node :=
  match node with
  | ⟨rule, span, children⟩ => embeds ⟨rule, span, children⟩ ++ embeddedInAll children

/-- All expressions in trees. -/
def embeddedInAll (nodes : List Node) : List Node :=
  match nodes with
  | [] => []
  | node :: rest => node.embedded ++ embeddedInAll rest

end

mutual

/-- The nested elements of a tree that are not inside of other nested elements. -/
def outermost (node : Node) : List Node :=
  match node with
  | ⟨.nestedElement, span, children⟩ => [⟨.nestedElement, span, children⟩]
  | ⟨_, _, children⟩ => outermostInAll children

/-- The nested elements of trees that are not inside of other nested elements. -/
def outermostInAll (nodes : List Node) : List Node :=
  match nodes with
  | [] => []
  | node :: rest => node.outermost ++ outermostInAll rest

end

/-- The spans of a nested element, with its parentheses and without them. -/
def nestedSpans (node : Node) : Span × Option Span :=
  (node.span, node.children.head?.map (·.span))

theorem embedded_exprOver : (exprOver o t nodes).embedded = embeddedInAll nodes := by
  rw [exprOver, embedded]
  rfl

theorem embedded_holder {rule : Rule} {span : Span}
    (h : rule ∈ [.exprValue, .exprListValue, .contentExpr, .contentExprList]) :
    embedded ⟨rule, span, [exprOver o t nodes]⟩ = exprOver o t nodes :: embeddedInAll nodes := by
  rw [embedded, embeddedInAll, embedded_exprOver, embeddedInAll, List.append_nil]
  simp only [List.mem_cons, List.not_mem_nil, or_false] at h
  rcases h with rfl | rfl | rfl | rfl <;> rfl

end Node

/-- The spans of a nested element, with its parentheses and without them. -/
def NestedElement.spans (x : NestedElement) : Span × Option Span :=
  (x.span, some x.element.span)

/-- The source of the expression at a node: the elements nested in it are those of the node. -/
structure EmbeddedExpr.IsOf (source : EmbeddedExpr) (node : Node) : Prop where
  span : source.span = node.span
  nested : (Segment.nestedOfAll source.segments).map NestedElement.spans =
    node.outermost.map Node.nestedSpans

/-- The expressions are those of nodes, as a template gives them. -/
def AllFrom (template : List Char) (sources : List EmbeddedExpr) (nodes : List Node) : Prop :=
  List.Forall₂ (fun source node => source.IsFrom template ∧ source.IsOf node) sources nodes

/-- Where the source of an expression comes from: its segments are laid over its span, and those of
nested elements have parentheses. -/
structure EmbeddedExpr.Stands (template : List Char) (source : EmbeddedExpr) : Prop where
  span : source.span.IsWhole template
  laid : Laid template source.span.start source.segments source.span.stop
  enclosed : ∀ x ∈ Segment.nestedOfAll source.segments, x.span.IsEnclosed template

/-- The expressions are those of nodes, as a template gives them, and their segments are laid over
the template. -/
def AllLaid (template : List Char) (sources : List EmbeddedExpr) (nodes : List Node) : Prop :=
  List.Forall₂ (fun source node => source.IsFrom template ∧ source.IsOf node ∧
    source.Stands template) sources nodes

theorem AllLaid.append {sources sources' : List EmbeddedExpr} {nodes' : List Node}
    (h : AllLaid template sources nodes) (h' : AllLaid template sources' nodes') :
    AllLaid template (sources ++ sources') (nodes ++ nodes') :=
  List.rel_append h h'

theorem AllLaid.allFrom {sources : List EmbeddedExpr} (h : AllLaid template sources nodes) :
    AllFrom template sources nodes :=
  h.imp fun _ _ hsource => ⟨hsource.1, hsource.2.1⟩

theorem AllLaid.stands {sources : List EmbeddedExpr} (h : AllLaid template sources nodes) :
    ∀ source ∈ sources, source.Stands template := by
  induction h with
  | nil => exact fun _ hsource => absurd hsource List.not_mem_nil
  | cons hfirst _ ih => exact List.forall_mem_cons.mpr ⟨hfirst.2.2, ih⟩

theorem AllFrom.isFrom {sources : List EmbeddedExpr} (h : AllFrom template sources nodes) :
    ∀ source ∈ sources, source.IsFrom template := by
  induction h with
  | nil => exact fun _ hsource => absurd hsource List.not_mem_nil
  | cons hfirst _ ih => exact List.forall_mem_cons.mpr ⟨hfirst.1, ih⟩

/-- The spans of an element itself and of its attributes have a property. -/
structure Element.Stands (P : Span → Prop) (x : Element) : Prop where
  span : P x.span
  attrs : ∀ attr ∈ x.attrs, P attr.span

/-- All elements have their spans and those of their attributes with a property. -/
def AllStand (P : Span → Prop) (elements : List Element) : Prop :=
  ∀ x ∈ elements, x.Stands P

/-- The expressions and the elements of a part of a template, whose spans are all whole. -/
structure LaidOut (template : List Char) (sources : List EmbeddedExpr) (elements : List Element)
    (nodes : List Node) : Prop where
  laid : AllLaid template sources nodes
  stand : AllStand (Span.IsWhole template) elements

theorem LaidOut.nil : LaidOut template [] [] [] :=
  ⟨.nil, List.forall_mem_nil _⟩

theorem LaidOut.append {sources sources' : List EmbeddedExpr} {elements elements' : List Element}
    {nodes' : List Node} (h : LaidOut template sources elements nodes)
    (h' : LaidOut template sources' elements' nodes') :
    LaidOut template (sources ++ sources') (elements ++ elements') (nodes ++ nodes') :=
  ⟨h.laid.append h'.laid, List.forall_mem_append.mpr ⟨h.stand, h'.stand⟩⟩

/-- Dropping blanks at the end of content drops no element. -/
theorem elementsOfAll_trimContent (items : List ContentItem) :
    ContentItem.elementsOfAll (Reduction.trimContent items) = ContentItem.elementsOfAll items := by
  fun_induction Reduction.trimContent items with
  | case1 => rfl
  | case2 => rfl
  | case3 => rfl
  | case4 item rest _ ih => rw [ContentItem.elementsOfAll, ContentItem.elementsOfAll, ih]

/-- Dropping blanks at the end of content drops no expression. -/
theorem sourcesOfAll_trimContent (items : List ContentItem) :
    ContentItem.sourcesOfAll (Reduction.trimContent items) = ContentItem.sourcesOfAll items := by
  fun_induction Reduction.trimContent items with
  | case1 => rfl
  | case2 => rfl
  | case3 => rfl
  | case4 item rest _ ih => rw [ContentItem.sourcesOfAll, ContentItem.sourcesOfAll, ih]

/-! ## Reduction of recognized parts -/

/-- All elements in the index were recorded before an offset. -/
def Recorded (o : Nat) (index : NestedIndex) : Prop :=
  ∀ x ∈ index, x.span.start < x.span.stop ∧ x.span.stop ≤ o

theorem Recorded.mono {o' : Nat} (h : Recorded o index) (ho : o ≤ o') : Recorded o' index := by
  intro x hx
  have hbounds := h x hx
  omega

theorem Recorded.append {index : List NestedElement} {cells : List SourceCell}
    (h : Recorded o index) (hweave : Weaves o t nested cells) :
    Recorded (o + byteLength t) (index ++ nested) := by
  intro x hx
  rcases List.mem_append.mp hx with hx | hx
  · have hbounds := h x hx
    omega
  · have hbounds := hweave.span_bounds x hx
    omega

/-- Nested elements are those of nodes, and so are the expressions in them. -/
structure NestedFrom (template : List Char) (nested : List NestedElement) (nodes : List Node) :
    Prop where
  spans : nested.map NestedElement.spans = (Node.outermostInAll nodes).map Node.nestedSpans
  enclosed : ∀ x ∈ nested, x.span.IsEnclosed template
  laidOut : LaidOut template (nested.flatMap (·.element.sources))
    (nested.flatMap (·.element.elements)) (Node.embeddedInAll nodes)

theorem NestedFrom.cons {nested' : List NestedElement} (h : NestedFrom template nested [node])
    (h' : NestedFrom template nested' nodes) :
    NestedFrom template (nested ++ nested') (node :: nodes) where
  spans := by
    have hspans := congrArg₂ (· ++ ·) h.spans h'.spans
    simpa [Node.outermostInAll] using hspans
  enclosed := List.forall_mem_append.mpr ⟨h.enclosed, h'.enclosed⟩
  laidOut := by
    have hlaid := h.laidOut.append h'.laidOut
    simpa [Node.embeddedInAll] using hlaid

/-- Around the pieces of an expression there are no other nested elements. -/
theorem NestedFrom.exprOver (h : NestedFrom template nested nodes) (o : Nat) (t : List Char) :
    NestedFrom template nested [.exprOver o t nodes] where
  spans := by
    rw [h.spans, Node.outermostInAll, Node.exprOver, Node.outermost, Node.outermostInAll,
      List.append_nil]
    simp
  enclosed := h.enclosed
  laidOut := by
    rw [Node.embeddedInAll, Node.embedded_exprOver, Node.embeddedInAll, List.append_nil]
    exact h.laidOut

theorem NestedFrom.group (h : NestedFrom template nested nodes) {rule : Rule}
    {opening closing : Char} (hgroup : (rule, opening, closing) ∈ groups) (span : Span) :
    NestedFrom template nested [⟨rule, span, nodes⟩] := by
  simp only [groups, List.mem_cons, Prod.mk.injEq, List.not_mem_nil, or_false] at hgroup
  rcases hgroup with ⟨rfl, rfl, rfl⟩ | ⟨rfl, rfl, rfl⟩ | ⟨rfl, rfl, rfl⟩
  all_goals
    refine ⟨?_, h.enclosed, ?_⟩
    · simpa [Node.outermostInAll, Node.outermost] using h.spans
    · simpa [Node.embeddedInAll, Node.embedded, Node.embeds] using h.laidOut

/-- The reduction of the nodes of a part gives what they stand for, with expressions as the template
gives them, from an index of elements recorded before, which it leaves as it was. -/
def Sense.Reduces (template : List Char) (index : NestedIndex) : Sense → Nat → List Char → Prop
  | .element node e, _, _ =>
    ∃ x, Reduction.element template node index = .ok (x, index) ∧ x.unplaced = e ∧
      x.span = node.span ∧ LaidOut template x.sources x.elements node.embedded
  | .attributes nodes attrs, _, _ =>
    ∃ xs, Reduction.attributes template nodes index = .ok (xs, index) ∧
      Attribute.unplacedAll xs = attrs ∧ (∀ x ∈ xs, x.span.IsWhole template) ∧
      LaidOut template (Attribute.sourcesOfAll xs) (Attribute.elementsOfAll xs)
        (Node.embeddedInAll nodes)
  | .value node v, _, _ =>
    ∃ x, Reduction.attributeValue template node index = .ok (x, index) ∧ x.unplaced = v ∧
      LaidOut template x.sources x.elements node.embedded
  | .items nodes contents, _, _ =>
    ∃ xs, Reduction.contentItems template nodes index = .ok (xs, index) ∧
      ContentItem.unplacedAll xs = contents ∧
      LaidOut template (ContentItem.sourcesOfAll xs) (ContentItem.elementsOfAll xs)
        (Node.embeddedInAll nodes)
  | .item node i, _, _ =>
    ∃ x, x.unplaced = i ∧ LaidOut template x.sources x.elements node.embedded ∧ ∀ rest more,
      Reduction.contentItems template rest index = .ok (more, index) →
      Reduction.contentItems template (node :: rest) index = .ok (x :: more, index)
  | .pieces _ nodes cells, o, t =>
    ∃ nested, Reduction.collectAll template nodes index = .ok ((), index ++ nested) ∧
      Weaves o t nested cells ∧ Balanced cells ∧ NestedFrom template nested nodes
  | .piece _ node cells, o, t =>
    ∃ nested, Reduction.collect template node index = .ok ((), index ++ nested) ∧
      Weaves o t nested cells ∧ NestedFrom template nested [node] ∧
      ∀ rest, EndsBeforeCells t rest → Balanced rest → Balanced (cells ++ rest)
  | .noNested, _, _ => True
  | .noDict, _, _ => True

section Steps

variable {template : List Char} {index : NestedIndex} {o : Nat} {t : List Char}
  {children : List Node} {span : Span} {rule : Rule} {opening closing : Char}
  {cells : List SourceCell}

theorem slice_of_isAt (hat : IsAt template t o) : (Span.over o t).slice template = t :=
  hat.slice

theorem tagName_of_isAt (hat : IsAt template t o) :
    Reduction.tagName template (.leafOver .tagName o t :: children) span index =
      .ok (String.ofList t, index) := by
  change Except.ok (String.ofList ((Span.over o t).slice template), index) = _
  rw [slice_of_isAt hat]

theorem attributes_of_leaf :
    Reduction.attributes template (.leafOver .tagName o t :: children) =
      Reduction.attributes template children := by
  rw [Reduction.attributes, if_neg (by simp [Node.leafOver, Node.leaf])]

theorem collect_exprOver :
    Reduction.collect template (.exprOver o t nodes) = Reduction.collectAll template nodes := by
  simp [Node.exprOver, Reduction.collect]

theorem collect_group (hgroup : (rule, opening, closing) ∈ groups) :
    Reduction.collect template ⟨rule, span, nodes⟩ = Reduction.collectAll template nodes := by
  simp only [groups, List.mem_cons, Prod.mk.injEq, List.not_mem_nil, or_false] at hgroup
  rcases hgroup with ⟨rfl, rfl, rfl⟩ | ⟨rfl, rfl, rfl⟩ | ⟨rfl, rfl, rfl⟩ <;> simp [Reduction.collect]

theorem sourcesOfAll_segments (segments : List Segment) :
    Segment.sourcesOfAll segments =
      (Segment.nestedOfAll segments).flatMap (·.element.sources) := by
  induction segments with
  | nil => rfl
  | cons s rest ih =>
    obtain ⟨text, span, element⟩ := s
    cases element with
    | none => exact ih
    | some e => exact congrArg (e.sources ++ ·) ih

theorem elementsOfAll_segments (segments : List Segment) :
    Segment.elementsOfAll segments =
      (Segment.nestedOfAll segments).flatMap (·.element.elements) := by
  induction segments with
  | nil => rfl
  | cons s rest ih =>
    obtain ⟨text, span, element⟩ := s
    cases element with
    | none => exact ih
    | some e => exact congrArg (e.elements ++ ·) ih

/-- An expression is put together from its text and the elements recorded for it. -/
theorem exprSource_of_weaves (hrule : rule ≠ .nestedElement) (hat : IsAt template t o)
    (hindex : Recorded o index) (hweave : Weaves o t nested cells) (hbalanced : Balanced cells)
    (hnested : NestedFrom template nested nodes) :
    ∃ source, Reduction.exprSource template (.over o t) (index ++ nested) = .ok (source, index) ∧
      source.unplaced = .ofCells cells ∧
      LaidOut template source.sources source.elements
        (⟨rule, .over o t, nodes⟩ :: Node.embeddedInAll nodes) := by
  have hwhole := Span.IsWhole.of_isAt hat
  obtain ⟨front, back, htext, rfl⟩ := hat
  have hbefore : ∀ x ∈ index, x.span.start < byteLength front := by
    intro x hx
    have hbounds := hindex x hx
    omega
  obtain ⟨segments, htake, hne, htaken, hplain⟩ := NestedIndex.take_of_weaves htext hweave hbefore
  refine ⟨⟨.over (byteLength front) t, segments⟩, ?_, hplain, ?_, ?_⟩
  · let taken := NestedIndex.take template (.over (byteLength front) t) (index ++ nested)
    change Except.ok ((⟨.over (byteLength front) t, taken.1⟩ : EmbeddedExpr), taken.2) = _
    simp only [taken, htake]
  · rw [EmbeddedExpr.sources, sourcesOfAll_segments, htaken.nested]
    refine .cons ⟨⟨hne, htaken.alternate, hbalanced.of_own? htaken.own⟩, ⟨rfl, ?_⟩, hwhole,
      htaken.laid, htaken.nested ▸ hnested.enclosed⟩ hnested.laidOut.laid
    rw [htaken.nested, hnested.spans]
    cases rule <;> first | rfl | exact absurd rfl hrule
  · rw [EmbeddedExpr.elements, elementsOfAll_segments, htaken.nested]
    exact hnested.laidOut.stand

theorem innerExpr_of_reduces (hsize : opening.utf8Size = 1)
    (hat : IsAt template (opening :: t ++ [closing]) o) (hindex : Recorded o index)
    (ih : ∀ {index}, IsAt template t (o + 1) → Recorded (o + 1) index →
      (Sense.pieces false nodes cells).Reduces template index (o + 1) t) :
    ∃ source, Reduction.innerExpr template [.exprOver (o + 1) t nodes] span index =
        .ok (source, index) ∧ source.unplaced = .ofCells cells ∧
      LaidOut template source.sources source.elements
        (.exprOver (o + 1) t nodes :: Node.embeddedInAll nodes) := by
  have hinner := hat.inside hsize
  have hindex' := hindex.mono (Nat.le_add_right o 1)
  obtain ⟨nested, hcollect, hweave, hbalanced, hnested⟩ := ih hinner hindex'
  have hrule : Rule.expr ≠ .nestedElement := by decide
  obtain ⟨source, hsource, hplain, hlaid⟩ :=
    exprSource_of_weaves hrule hinner hindex' hweave hbalanced hnested
  refine ⟨source, ?_, hplain, hlaid⟩
  have hexpr : Reduction.collect template (.exprOver (o + 1) t nodes) index =
      .ok ((), index ++ nested) := by
    rw [collect_exprOver]
    exact hcollect
  have hrule : (Node.exprOver (o + 1) t nodes).rule = .expr := rfl
  rw [Reduction.innerExpr, if_pos hrule, bind_of_ok hexpr]
  exact hsource

/-- A key and a value between braces are one expression, braces and all. -/
theorem reduces_dict {key value : List Char} {keys values : List Node}
    {keyCells valueCells : List SourceCell}
    (hat : IsAt template ('\x7b' :: key ++ ':' :: value ++ ['\x7d']) o) (hindex : Recorded o index)
    (ih₁ : ∀ {index}, IsAt template key (o + 1) → Recorded (o + 1) index →
      (Sense.pieces true keys keyCells).Reduces template index (o + 1) key)
    (ih₂ : ∀ {index}, IsAt template value (o + byteLength ('\x7b' :: key ++ [':'])) →
      Recorded (o + byteLength ('\x7b' :: key ++ [':'])) index →
      (Sense.pieces false values valueCells).Reduces template index
        (o + byteLength ('\x7b' :: key ++ [':'])) value) :
    (Sense.value ⟨.dictShorthand, .over o ('\x7b' :: key ++ ':' :: value ++ ['\x7d']),
        [.exprOver (o + 1) key keys,
          .exprOver (o + byteLength ('\x7b' :: key ++ [':'])) value values]⟩
      (.expr (.ofCells (.own '\x7b' :: keyCells ++ .own ':' :: valueCells ++ [.own '\x7d'])))).Reduces
      template index o ('\x7b' :: key ++ ':' :: value ++ ['\x7d']) := by
  have hkey : IsAt template key (o + 1) :=
    IsAt.part (a := ['\x7b']) (b := ':' :: value ++ ['\x7d']) (by simpa using hat)
  have hvalue : IsAt template value (o + byteLength ('\x7b' :: key ++ [':'])) :=
    IsAt.part (b := ['\x7d']) (by simpa using hat)
  have hindex' := hindex.mono (Nat.le_add_right o 1)
  obtain ⟨nested₁, hcollect₁, hweave₁, hbalanced₁, hnested₁⟩ := ih₁ hkey hindex'
  have hrecorded : Recorded (o + byteLength ('\x7b' :: key ++ [':'])) (index ++ nested₁) := by
    refine (hindex'.append hweave₁).mono ?_
    have hsize : '\x7b'.utf8Size = 1 := rfl
    simp only [List.cons_append, Text.byteLength_cons, Text.byteLength_append, hsize]
    omega
  obtain ⟨nested₂, hcollect₂, hweave₂, hbalanced₂, hnested₂⟩ := ih₂ hvalue hrecorded
  -- the braces, the key, the colon and the value are woven in their order
  have hweave : Weaves o ('\x7b' :: key ++ ':' :: value ++ ['\x7d']) (nested₁ ++ nested₂)
      (.own '\x7b' :: keyCells ++ .own ':' :: valueCells ++ [.own '\x7d']) := by
    have hopen := (weaves_text o ['\x7b']).append hweave₁
    have hcolon := hopen.append (weaves_text _ [':'])
    have hback : Weaves o (['\x7b'] ++ key ++ [':'] ++ value) _ _ :=
      hcolon.append (by simpa [Nat.add_assoc] using hweave₂)
    simpa using hback.append (weaves_text _ ['\x7d'])
  have hbalanced : Balanced
      (.own '\x7b' :: keyCells ++ .own ':' :: valueCells ++ [.own '\x7d'] : List SourceCell) := by
    have hbraces : (Rule.braces, '\x7b', '\x7d') ∈ groups := by decide
    have hinner : Balanced (keyCells ++ .own ':' :: valueCells) := by
      refine hbalanced₁.append (.plain (by decide) hbalanced₂) ?_
      intro quote hquote hhead
      cases hhead
      exact absurd hquote (by decide)
    simpa using Balanced.group hbraces hinner .nil
  have hnested := (hnested₁.exprOver (o + 1) key).cons
    (hnested₂.exprOver (o + byteLength ('\x7b' :: key ++ [':'])) value)
  have hrule : Rule.dictShorthand ≠ .nestedElement := by decide
  obtain ⟨source, hsource, hplain, hlaid⟩ :=
    exprSource_of_weaves hrule hat hindex hweave hbalanced hnested
  refine ⟨.expr source, ?_, by rw [AttributeValue.unplaced, hplain], hlaid⟩
  have hcollect : Reduction.collectAll template
      [.exprOver (o + 1) key keys,
        .exprOver (o + byteLength ('\x7b' :: key ++ [':'])) value values] index =
      .ok ((), index ++ (nested₁ ++ nested₂)) := by
    rw [Reduction.collectAll, collect_exprOver, bind_of_ok hcollect₁, Reduction.collectAll,
      collect_exprOver, bind_of_ok hcollect₂, Reduction.collectAll, List.append_assoc]
    rfl
  rw [Reduction.attributeValue, bind_of_ok hcollect, bind_of_ok hsource]
  rfl

theorem unquote_eq {quote : Char} (hquote : quote.utf8Size = 1) (body : List Char) :
    Reduction.unquote (quote :: body ++ [quote]) = body := by
  have hslice := Span.slice_over [quote] body [quote]
  have hone : byteLength [quote] = 1 := by rw [Text.byteLength_cons, hquote, Text.byteLength_nil]
  have hlen : byteLength (quote :: body ++ [quote]) - 1 = 1 + byteLength body := by
    rw [List.cons_append, Text.byteLength_cons, Text.byteLength_append, hone, hquote]
    omega
  rw [hone] at hslice
  rw [Reduction.unquote, hlen]
  exact hslice

/-- Two quotes that are a piece are not followed by a third one. -/
theorem Recognizes.endsBefore {stopAtColon : Bool} {rest : List Char}
    (h : Recognizes (.piece stopAtColon node cells) o t rest) : EndsBefore t rest := by
  cases h with
  | string _ hends => exact hends
  | plain _ ht _ =>
    intro quote hquote htwo
    have hplain := ht quote (htwo ▸ List.mem_cons_self)
    rcases eq_of_stringQuotes hquote with rfl | rfl <;> cases hplain
  | group hgroup _ _ =>
    intro quote hquote htwo
    have hall : ∀ group ∈ groups, [group.2.1] ∉ stringQuotes := by decide
    obtain ⟨rfl, -⟩ := List.cons.inj htwo
    exact absurd hquote (hall _ hgroup)
  | nested _ _ _ htext =>
    intro quote hquote htwo
    obtain ⟨rfl, -⟩ := List.cons.inj (htext.symm.trans htwo)
    exact absurd hquote (by decide)

end Steps

/-- The reduction of a recognized part succeeds, from any index of elements recorded before it. -/
theorem Recognizes.reduces {sense : Sense} {rest : List Char} (h : Recognizes sense o t rest)
    (hat : IsAt template t o) (hindex : Recorded o index) : sense.Reduces template index o t := by
  -- every part starts at or after `o`, so what was recorded before it stays recorded before it
  induction h generalizing index with
  | @selfClosing o w name t w' attrs as text rest _ _ _ _ _ htext ih =>
    subst htext
    have htag : IsAt template name (o + byteLength ('<' :: w)) :=
      IsAt.part (b := t ++ w' ++ ['/', '>']) (by simpa using hat)
    have hat' : IsAt template t (o + byteLength ('<' :: w ++ name)) :=
      IsAt.part (b := w' ++ ['/', '>']) (by simpa using hat)
    obtain ⟨xs, hattrs, hxs, hspans, hlaid⟩ := ih hat' (hindex.mono (Nat.le_add_right _ _))
    refine ⟨⟨String.ofList name, xs, none, .over o ('<' :: w ++ name ++ t ++ w' ++ ['/', '>'])⟩,
      ?_, ?_, rfl, ?_, ?_⟩
    · rw [Reduction.element, bind_of_ok (tagName_of_isAt htag), attributes_of_leaf,
        bind_of_ok hattrs]
      rfl
    · rw [Element.unplaced, hxs, ContentItem.unplacedOptional]
    · rw [Element.sources, ContentItem.sourcesOfOptional, List.append_nil]
      exact hlaid.laid
    · rw [Element.elements, ContentItem.elementsOfOptional, List.nil_append]
      exact List.forall_mem_cons.mpr ⟨⟨.of_isAt hat, hspans⟩, hlaid.stand⟩
  | @normal o w name t w' attrs as opening v body items contents u u' closing rest _ _ _ _ _ hopening
      _ _ _ _ _ hclosing ih₁ ih₂ =>
    have hbody : IsAt template body (o + byteLength (opening ++ v)) :=
      IsAt.part (b := closing) hat
    have hclose : IsAt template name (o + byteLength (opening ++ v ++ body ++ '<' :: '/' :: u)) :=
      IsAt.part (b := u' ++ ['>']) (by simpa [hclosing] using hat)
    have htag : IsAt template name (o + byteLength ('<' :: w)) :=
      IsAt.part (b := t ++ w' ++ ['>'] ++ v ++ body ++ closing) (by simpa [hopening] using hat)
    have hat' : IsAt template t (o + byteLength ('<' :: w ++ name)) :=
      IsAt.part (b := w' ++ ['>'] ++ v ++ body ++ closing) (by simpa [hopening] using hat)
    obtain ⟨xs, hattrs, hxs, hspans, hlaid₁⟩ := ih₁ hat' (hindex.mono (Nat.le_add_right _ _))
    obtain ⟨ys, hitems, hys, hlaid₂⟩ := ih₂ hbody (hindex.mono (Nat.le_add_right _ _))
    refine ⟨⟨String.ofList name, xs, some (Reduction.trimContent ys),
      .over o (opening ++ v ++ body ++ closing)⟩, ?_, ?_, rfl, ?_, ?_⟩
    · rw [Reduction.element, bind_of_ok (tagName_of_isAt htag), attributes_of_leaf,
        bind_of_ok hattrs, bind_of_ok (tagName_of_isAt hclose), if_pos rfl, bind_of_ok hitems]
      rfl
    · rw [Element.unplaced, hxs, ContentItem.unplacedOptional, ContentItem.unplacedAll_trimContent,
        hys]
    · rw [Element.sources, ContentItem.sourcesOfOptional, sourcesOfAll_trimContent]
      simpa [Node.embedded, Node.embeddedInAll, Node.embeds, Node.leafOver, Node.leaf] using
        hlaid₁.laid.append hlaid₂.laid
    · rw [Element.elements, ContentItem.elementsOfOptional, elementsOfAll_trimContent]
      exact List.forall_mem_cons.mpr
        ⟨⟨.of_isAt hat, hspans⟩, List.forall_mem_append.mpr ⟨hlaid₂.stand, hlaid₁.stand⟩⟩
  | noAttributes => exact ⟨[], rfl, rfl, List.forall_mem_nil _, .nil⟩
  | @moreAttributes o w name u u' t node value text more attrs as rest _ _ _ _ _ htext _ ih₁ ih₂ =>
    subst htext
    have hname : IsAt template name (o + byteLength w) :=
      IsAt.part (b := u ++ '=' :: u' ++ t ++ more) (by simpa using hat)
    have hvalue : IsAt template t (o + byteLength (w ++ name ++ u ++ '=' :: u')) :=
      IsAt.part (b := more) (by simpa using hat)
    obtain ⟨x, hx, hplain, hlaid₁⟩ := ih₁ hvalue (hindex.mono (Nat.le_add_right _ _))
    obtain ⟨xs, hxs, hrest, hspans, hlaid₂⟩ := ih₂ hat.back (hindex.mono (Nat.le_add_right _ _))
    let leaf := Node.leafOver .attrName (o + byteLength w) name
    let span := Span.over (o + byteLength w) (name ++ u ++ '=' :: u' ++ t)
    have hattr : Reduction.attributeOf template ⟨.attribute, span, [leaf, node]⟩ index =
        .ok (⟨String.ofList (leaf.text template), x, span⟩, index) := by
      rw [Reduction.attributeOf, bind_of_ok hx]
      rfl
    have htext : leaf.text template = name := slice_of_isAt hname
    have hspan : IsAt template (name ++ u ++ '=' :: u' ++ t) (o + byteLength w) :=
      IsAt.part (b := more) (by simpa using hat)
    refine ⟨⟨String.ofList name, x, span⟩ :: xs, ?_, ?_,
      List.forall_mem_cons.mpr ⟨.of_isAt hspan, hspans⟩, ?_⟩
    · rw [Reduction.attributes, if_pos rfl, bind_of_ok hattr, bind_of_ok hxs, htext]
      rfl
    · rw [Attribute.unplacedAll, hplain, hrest]
    · rw [Attribute.sourcesOfAll, Attribute.elementsOfAll]
      simpa [Node.embedded, Node.embeddedInAll, Node.embeds, Node.leafOver, Node.leaf] using
        hlaid₁.append hlaid₂
  | @quoted o quote body rest hquote _ =>
    have hsize : quote.utf8Size = 1 := by
      rcases eq_of_stringQuotes hquote with rfl | rfl <;> rfl
    refine ⟨.literal (String.ofList body), ?_, rfl, .nil⟩
    change Except.ok (AttributeValue.literal (String.ofList (Reduction.unquote
      ((Span.over o (quote :: body ++ [quote])).slice template))), index) = _
    rw [slice_of_isAt hat, unquote_eq hsize]
  | dict _ _ ih₁ ih₂ => exact reduces_dict hat hindex ih₁ ih₂
  | braces _ _ _ ih =>
    obtain ⟨source, hsource, hplain, hlaid⟩ := innerExpr_of_reduces rfl hat hindex ih
    refine ⟨.expr source, ?_, by rw [AttributeValue.unplaced, hplain], ?_⟩
    · rw [Reduction.attributeValue, bind_of_ok hsource]
      rfl
    · rw [Node.embedded_holder (by decide)]
      exact hlaid
  | brackets _ ih =>
    obtain ⟨source, hsource, hplain, hlaid⟩ := innerExpr_of_reduces rfl hat hindex ih
    refine ⟨.spread source, ?_, by rw [AttributeValue.unplaced, hplain], ?_⟩
    · rw [Reduction.attributeValue, bind_of_ok hsource]
      rfl
    · rw [Node.embedded_holder (by decide)]
      exact hlaid
  | noItems => exact ⟨[], rfl, rfl, .nil⟩
  | items _ _ ih₁ ih₂ =>
    obtain ⟨x, hx, hlaid₁, hitem⟩ := ih₁ hat.front hindex
    obtain ⟨xs, hxs, hrest, hlaid₂⟩ := ih₂ hat.back (hindex.mono (Nat.le_add_right _ _))
    refine ⟨x :: xs, hitem _ xs hxs, by rw [ContentItem.unplacedAll, hx, hrest], ?_⟩
    rw [ContentItem.sourcesOfAll, ContentItem.elementsOfAll, Node.embeddedInAll]
    exact hlaid₁.append hlaid₂
  | @elementItem o t node e rest h ih =>
    obtain ⟨x, hx, hplain, -, hlaid⟩ := ih hat hindex
    refine ⟨.element x, by rw [ContentItem.unplaced, hplain], hlaid, ?_⟩
    intro others more hmore
    have hrun : Reduction.contentItems template (node :: others) index =
        (Reduction.element template node >>= fun e => do
          return .element e :: (← Reduction.contentItems template others)) index := by
      cases h <;> simp [Reduction.contentItems]
    rw [hrun, bind_of_ok hx, bind_of_ok hmore]
    rfl
  | braceItem _ ih =>
    obtain ⟨source, hsource, hplain, hlaid⟩ := innerExpr_of_reduces rfl hat hindex ih
    refine ⟨.expr source, by rw [ContentItem.unplaced, hplain], ?_, fun others more hmore => ?_⟩
    · rw [Node.embedded_holder (by decide)]
      exact hlaid
    · rw [Reduction.contentItems, bind_of_ok hsource, bind_of_ok hmore]
      rfl
  | bracketItem _ ih =>
    obtain ⟨source, hsource, hplain, hlaid⟩ := innerExpr_of_reduces rfl hat hindex ih
    refine ⟨.spread source, by rw [ContentItem.unplaced, hplain], ?_, fun others more hmore => ?_⟩
    · rw [Node.embedded_holder (by decide)]
      exact hlaid
    · rw [Reduction.contentItems, bind_of_ok hsource, bind_of_ok hmore]
      rfl
  | @text o t rest _ _ _ =>
    refine ⟨.literal (String.ofList t), rfl, .nil, fun others more hmore => ?_⟩
    rw [Node.leafOver, Node.leaf, Reduction.contentItems, bind_of_ok hmore, slice_of_isAt hat]
    rfl
  | noPieces =>
    exact ⟨[], by rw [List.append_nil]; rfl, .nil, .nil, rfl, List.forall_mem_nil _, .nil⟩
  | @pieces o stopAtColon t node cells u nodes more rest hpiece _ ih₁ ih₂ =>
    obtain ⟨nested₁, hcollect₁, hweave₁, hnested₁, hbalanced₁⟩ := ih₁ hat.front hindex
    obtain ⟨nested₂, hcollect₂, hweave₂, hbalanced₂, hnested₂⟩ :=
      ih₂ hat.back (hindex.append hweave₁)
    refine ⟨nested₁ ++ nested₂, ?_, hweave₁.append hweave₂, ?_, hnested₁.cons hnested₂⟩
    · rw [Reduction.collectAll, bind_of_ok hcollect₁, hcollect₂, List.append_assoc]
    · refine hbalanced₁ more ?_ hbalanced₂
      intro quote hquote htwo hhead
      refine hpiece.endsBefore quote hquote htwo ?_
      rw [List.head?_append, hweave₂.head? hhead]
      rfl
  | @string o stopAtColon t rest ht _ =>
    refine ⟨[], ?_, weaves_text o t, ⟨rfl, List.forall_mem_nil _, .nil⟩,
      fun more hends hmore => .string ht hends hmore⟩
    rw [Node.leafOver, Node.leaf, Reduction.collect, List.append_nil]
    rfl
  | @plain o stopAtColon t rest _ ht _ =>
    refine ⟨[], ?_, weaves_text o t, ⟨rfl, List.forall_mem_nil _, .nil⟩,
      fun more _ hmore => .plainText (fun c hc => ?_) hmore⟩
    · rw [Node.leafOver, Node.leaf, Reduction.collect, List.append_nil]
      rfl
    · have hplain := ht c hc
      simp only [isPlainChar, Bool.and_eq_true, Bool.not_eq_true'] at hplain
      exact hplain.1
  | @group o stopAtColon rule opening closing t nodes cells rest hgroup _ _ _ ih =>
    have hsize := utf8Size_of_group hgroup
    obtain ⟨nested, hcollect, hweave, hbalanced, hnested⟩ :=
      ih (hat.inside hsize) (hindex.mono (Nat.le_add_right _ 1))
    refine ⟨nested, ?_, ?_, (hnested.exprOver (o + 1) t).group hgroup _, fun more _ hmore => ?_⟩
    · rw [collect_group hgroup, Reduction.collectAll, collect_exprOver, bind_of_ok hcollect,
        Reduction.collectAll]
      rfl
    · have hopen : Weaves o (opening :: t) nested (.own opening :: cells) :=
        .char (by rw [hsize]; exact hweave)
      have hclose := hopen.append (weaves_text _ [closing])
      rw [List.append_nil] at hclose
      exact hclose
    · have hassoc : (.own opening :: cells ++ [.own closing]) ++ more =
          .own opening :: cells ++ .own closing :: more := by simp
      rw [hassoc]
      exact .group hgroup hbalanced hmore
  | @nested o stopAtColon w t node e w' text rest _ _ _ htext ih =>
    have hinner : IsAt template t (o + byteLength ('(' :: w)) :=
      IsAt.part (b := w' ++ [')']) (by rw [htext] at hat; simpa using hat)
    have henclosed : (Span.over o text).IsEnclosed template := ⟨o, w ++ t ++ w', by
      rw [htext] at hat ⊢
      simpa using hat⟩
    obtain ⟨x, hx, rfl, hspan, hlaid⟩ := ih hinner (hindex.mono (Nat.le_add_right _ _))
    have hrecord : NestedIndex.record ⟨.over o text, x⟩ index = index ++ [⟨.over o text, x⟩] := by
      apply NestedIndex.record_of_lt
      intro y hy
      have hbounds := hindex y hy
      change y.span.start < o
      omega
    refine ⟨[⟨.over o text, x⟩], ?_, ?_, ⟨?_, List.forall_mem_singleton.mpr henclosed, ?_⟩,
      fun more _ hmore => .gap hmore⟩
    · rw [Reduction.collect, bind_of_ok hx]
      change Except.ok ((), NestedIndex.record ⟨.over o text, x⟩ index) = _
      rw [hrecord]
    · have hne : text ≠ [] := by
        rw [htext]
        exact List.cons_ne_nil _ _
      have hweave : Weaves o (text ++ []) [⟨.over o text, x⟩] [.gap (text, x.unplaced)] :=
        .nested hne .nil
      rw [List.append_nil] at hweave
      exact hweave
    · simp [NestedElement.spans, Node.outermostInAll, Node.outermost, Node.nestedSpans, hspan]
    · simpa [Node.embeddedInAll, Node.embedded, Node.embeds] using hlaid
  | _ => exact trivial

/-- The tree of a recognized template reduces to the element that the template stands for, whose
expressions are laid over the template. No nested element is left over. -/
theorem Element.root_of_recognizes (span : Span)
    (h : Recognizes (.element node e) (byteLength v) t v') :
    ∃ x, Reduction.root (v ++ t ++ v') ⟨.document, span, [node]⟩ [] = .ok (x, []) ∧ x.unplaced = e ∧
      LaidOut (v ++ t ++ v') x.sources x.elements (Node.embedded ⟨.document, span, [node]⟩) := by
  obtain ⟨x, hx, hplain, -, hlaid⟩ := h.reduces ⟨v, v', rfl, rfl⟩ fun y hy => absurd hy List.not_mem_nil
  refine ⟨x, hx, hplain, ?_⟩
  simpa [Node.embedded, Node.embeddedInAll, Node.embeds] using hlaid

/-- The tree of a recognized template reduces to the element that the template stands for. -/
theorem Element.ofNode_of_recognizes (span : Span)
    (h : Recognizes (.element node e) (byteLength v) t v') :
    ∃ x, Element.ofNode (v ++ t ++ v') ⟨.document, span, [node]⟩ = .ok x ∧ x.unplaced = e := by
  obtain ⟨x, hx, hplain, -⟩ := Element.root_of_recognizes span h
  exact ⟨x, run'_eq_ok.mpr ⟨[], hx⟩, hplain⟩

/-- A template that is recognized is read, and stands for the element it is recognized as. -/
theorem Element.exists_of_recognizes (hv : Blanks v) (hv' : Blanks v')
    (h : Recognizes (.element node e) (byteLength v) t v') :
    ∃ tree x, Node.parse (v ++ t ++ v') = .ok tree ∧ Element.ofNode (v ++ t ++ v') tree = .ok x ∧
      x.unplaced = e := by
  obtain ⟨x, hx, hplain⟩ := Element.ofNode_of_recognizes (.over 0 (v ++ t ++ v')) h
  exact ⟨_, x, Node.parse_eq_ok_iff.mpr ⟨v, t, v', node, e, rfl, hv, hv', rfl, h⟩, hx, hplain⟩

/-- The tree of a template reduces to an element whose expressions are laid over the template, and no
nested element is left over. -/
theorem Element.laid_of_parse (h : Node.parse template = .ok tree) :
    ∃ root, Reduction.root template tree [] = .ok (root, []) ∧
      LaidOut template root.sources root.elements tree.embedded := by
  obtain ⟨v, t, v', node, e, rfl, -, -, rfl, hnode⟩ := Node.recognizes_of_parse h
  obtain ⟨root, hroot, -, hlaid⟩ := Element.root_of_recognizes _ hnode
  exact ⟨root, hroot, hlaid⟩

/-- The expressions of the element that a tree reduces to are as the template gives them. -/
theorem Element.ofNode_of_parse (h : Node.parse template = .ok tree) :
    ∃ root, Reduction.root template tree [] = .ok (root, []) ∧
      AllFrom template root.sources tree.embedded := by
  obtain ⟨root, hroot, hlaid⟩ := Element.laid_of_parse h
  exact ⟨root, hroot, hlaid.laid.allFrom⟩

end ComponentMarkup
