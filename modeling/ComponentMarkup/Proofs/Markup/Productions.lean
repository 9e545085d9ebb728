import ComponentMarkup.Proofs.Markup.Reading
import Mathlib

/-!
# Productions

Every node of a tree that is read follows the production of its rule. Its span is one of the template,
its children follow each other inside of it, and what they leave uncovered is the punctuation of the
production, with blanks only in some places. Tag names agree, and outside of string literals and nested
elements the brackets of an expression match.
-/

namespace ComponentMarkup

open Text (byteLength)

variable {template : List Char} {depth : Nat} {x : Nat × Node} {P : Node → Prop}

/-! ## What stands around the children of a node -/

/-- A mark and what may follow it. -/
def OpensWith (mark : List Char) (margin : List Char → Prop) (gap : List Char) : Prop :=
  ∃ w, margin w ∧ gap = mark ++ w

/-- A mark and what may stand before it. -/
def ClosesWith (margin : List Char → Prop) (mark : List Char) (gap : List Char) : Prop :=
  ∃ w, margin w ∧ gap = w ++ mark

/-- What stands between the name and the value of an attribute. -/
def Equates (gap : List Char) : Prop :=
  ∃ u u', Blanks u ∧ Blanks u' ∧ gap = u ++ '=' :: u'

/-- A text between two quotes of a kind, without such quotes in it. -/
def IsQuoted (text : List Char) : Prop :=
  ∃ quote body, [quote] ∈ stringQuotes ∧ quote ∉ body ∧ text = quote :: body ++ [quote]

/-- A text that is not empty and has none of some characters. -/
def IsFreeOf (mark : Char → Bool) (text : List Char) : Prop :=
  text ≠ [] ∧ ∀ c ∈ text, mark c = false

/-- The texts that may stand before, between and after the `n` children of a node. `margin` says what
may stand next to the marks that open and close a tag. -/
def Rule.around (margin : List Char → Prop) : Rule → Nat → List (List Char → Prop)
  | .document, _ => [Blanks, Blanks]
  | .selfClosing, n =>
    OpensWith ['<'] margin :: (List.replicate (n - 1) Blanks ++ [ClosesWith margin ['/', '>']])
  | .openTag, n => OpensWith ['<'] margin :: (List.replicate (n - 1) Blanks ++ [ClosesWith margin ['>']])
  | .closeTag, _ => [OpensWith ['<', '/'] margin, ClosesWith margin ['>']]
  | .normal, _ => [(· = []), Blanks, Blanks, (· = [])]
  | .attribute, _ => [(· = []), Equates, (· = [])]
  | .dictShorthand, _ => [(· = ['\x7b']), (· = [':']), (· = ['\x7d'])]
  | .exprValue, _ | .contentExpr, _ | .braces, _ => [(· = ['\x7b']), (· = ['\x7d'])]
  | .exprListValue, _ | .contentExprList, _ | .brackets, _ => [(· = ['[']), (· = [']'])]
  | .parens, _ => [(· = ['(']), (· = [')'])]
  | .nestedElement, _ => [OpensWith ['('] Blanks, ClosesWith Blanks [')']]
  | .content, n | .expr, n => List.replicate (n + 1) (· = [])
  | .tagName, _ | .attrName, _ => [IsMarkupName]
  | .quotedLiteral, _ => [IsQuoted]
  | .text, _ => [IsFreeOf Reader.isContentMark]
  | .stringLiteral, _ => [IsStringLiteral]
  | .plain, _ => [IsFreeOf Reader.isMark]

/-- The values of attributes. -/
def valueRules : List Rule :=
  [.quotedLiteral, .dictShorthand, .exprValue, .exprListValue]

/-- The items of content. -/
def itemRules : List Rule :=
  [.selfClosing, .normal, .contentExpr, .contentExprList, .text]

/-- The pieces of expressions. -/
def pieceRules : List Rule :=
  [.stringLiteral, .plain, .parens, .braces, .brackets, .nestedElement]

/-- The rules of the children of a node. -/
def Rule.Parts : Rule → List Rule → Prop
  | .document, rules | .nestedElement, rules => ∃ rule, rule.isElement = true ∧ rules = [rule]
  | .selfClosing, rules | .openTag, rules => ∃ n, rules = .tagName :: List.replicate n .attribute
  | .closeTag, rules => rules = [.tagName]
  | .normal, rules => rules = [.openTag, .content, .closeTag]
  | .attribute, rules => ∃ rule ∈ valueRules, rules = [.attrName, rule]
  | .dictShorthand, rules => rules = [.expr, .expr]
  | .exprValue, rules | .exprListValue, rules | .contentExpr, rules | .contentExprList, rules
  | .parens, rules | .braces, rules | .brackets, rules => rules = [.expr]
  | .content, rules => ∀ rule ∈ rules, rule ∈ itemRules
  | .expr, rules => ∀ rule ∈ rules, rule ∈ pieceRules
  | .tagName, rules | .attrName, rules | .quotedLiteral, rules | .text, rules
  | .stringLiteral, rules | .plain, rules => rules = []

/-! ## What children leave uncovered -/

/-- Spans that follow each other between two offsets. -/
def Spaced : Nat → Nat → List Span → Prop
  | o, stop, [] => o ≤ stop
  | o, stop, span :: rest => o ≤ span.start ∧ span.start ≤ span.stop ∧ Spaced span.stop stop rest

namespace Node

/-- The texts before, between and after nodes, from an offset up to another. -/
def gapsFrom (template : List Char) (o stop : Nat) : List Node → List (List Char)
  | [] => [Span.slice ⟨o, stop⟩ template]
  | node :: rest =>
    Span.slice ⟨o, node.span.start⟩ template :: gapsFrom template node.span.stop stop rest

/-- The texts of a node that its children do not cover. -/
def gaps (template : List Char) (node : Node) : List (List Char) :=
  gapsFrom template node.span.start node.span.stop node.children

end Node

/-- Parts with gaps before, between and after them. -/
def interleave : List (List Char) → List (List Char) → List Char
  | gap :: gaps, part :: parts => gap ++ part ++ interleave gaps parts
  | gaps, _ => gaps.flatten

mutual

/-- The text of a node without the string literals and nested elements in it. -/
def Node.bare (template : List Char) (node : Node) : List Char :=
  match node with
  | ⟨.stringLiteral, _, _⟩ => []
  | ⟨.nestedElement, _, _⟩ => []
  | ⟨rule, span, children⟩ =>
    interleave (Node.gaps template ⟨rule, span, children⟩) (Node.bareAll template children)

/-- The texts of nodes without the string literals and nested elements in them. -/
def Node.bareAll (template : List Char) (nodes : List Node) : List (List Char) :=
  match nodes with
  | [] => []
  | node :: rest => node.bare template :: Node.bareAll template rest

end

/-- One of the brackets inside of expressions. -/
def isBracket (c : Char) : Bool :=
  groups.any fun (_, opening, closing) => c == opening || c == closing

/-- Every bracket of a text has its counterpart. -/
inductive Matched : List Char → Prop where
  | nil : Matched []
  | char {c rest} : isBracket c = false → Matched rest → Matched (c :: rest)
  | group {rule opening closing inner rest} : (rule, opening, closing) ∈ groups → Matched inner →
      Matched rest → Matched (opening :: inner ++ closing :: rest)

/-- A node follows the production of its rule. -/
structure Node.IsProduction (margin : List Char → Prop) (template : List Char) (node : Node) :
    Prop where
  /-- The span begins and ends between characters of the template. -/
  place : ∃ t, IsAt template t node.span.start ∧ node.span = .over node.span.start t
  spaced : Spaced node.span.start node.span.stop (node.children.map (·.span))
  parts : node.rule.Parts (node.children.map (·.rule))
  around : List.Forall₂ (fun (language : List Char → Prop) gap => language gap)
    (node.rule.around margin node.children.length) (node.gaps template)
  tags : node.rule = .normal → ∃ opening body closing name name',
    node.children = [opening, body, closing] ∧ opening.child? .tagName = some name ∧
      closing.child? .tagName = some name' ∧ name.text template = name'.text template
  brackets : node.rule = .expr → Matched (node.bare template)

/-! ## Texts made of gaps and children -/

/-- A text at an offset is made of the texts of nodes, with gaps before, between and after them. -/
inductive Tiles : Nat → List Char → List Node → List (List Char) → Prop where
  | last {o gap} : Tiles o gap [] [gap]
  | node {o gap t rest node nodes gaps} : node.span = .over (o + byteLength gap) t →
      Tiles (o + byteLength (gap ++ t)) rest nodes gaps →
      Tiles o (gap ++ t ++ rest) (node :: nodes) (gap :: gaps)

/-- A node at the beginning of a text. -/
theorem Tiles.first {o : Nat} {t rest : List Char} {node : Node} {nodes : List Node}
    {gaps : List (List Char)} (hspan : node.span = .over o t)
    (h : Tiles (o + byteLength t) rest nodes gaps) :
    Tiles o (t ++ rest) (node :: nodes) ([] :: gaps) :=
  @Tiles.node o [] t rest node nodes gaps hspan h

section Tiles

variable {template t : List Char} {o : Nat} {nodes : List Node} {gaps : List (List Char)}

theorem Tiles.gapsFrom_eq (h : Tiles o t nodes gaps) (hat : IsAt template t o) :
    Node.gapsFrom template o (o + byteLength t) nodes = gaps := by
  induction h with
  | last => rw [Node.gapsFrom, hat.slice]
  | @node o gap t rest node nodes gaps hspan _ ih =>
    have hrest := ih hat.back
    rw [Nat.add_assoc, ← Text.byteLength_append] at hrest
    have hstop : (Span.over (o + byteLength gap) t).stop = o + byteLength (gap ++ t) := by
      rw [Text.byteLength_append, ← Nat.add_assoc]
      rfl
    rw [Node.gapsFrom, hspan, hstop, hrest]
    exact congrArg (· :: gaps) hat.front.front.slice

theorem Tiles.spaced (h : Tiles o t nodes gaps) :
    Spaced o (o + byteLength t) (nodes.map (·.span)) := by
  induction h with
  | last => exact Nat.le_add_right _ _
  | @node o gap t rest node nodes gaps hspan _ ih =>
    have hstop : (Span.over (o + byteLength gap) t).stop = o + byteLength (gap ++ t) := by
      rw [Text.byteLength_append, ← Nat.add_assoc]
      rfl
    rw [Nat.add_assoc, ← Text.byteLength_append] at ih
    rw [List.map_cons, hspan]
    refine ⟨Nat.le_add_right _ _, Nat.le_add_right _ _, ?_⟩
    rw [hstop]
    exact ih

end Tiles

theorem Tiles.gaps_eq {t : List Char} {o : Nat} {nodes : List Node} {gaps : List (List Char)}
    (h : Tiles o t nodes gaps) (hat : IsAt template t o) (rule : Rule) :
    Node.gaps template ⟨rule, .over o t, nodes⟩ = gaps :=
  h.gapsFrom_eq hat

/-! ## All nodes of a tree -/

/-- A property holds for a node and all nodes below it. -/
def Node.Everywhere (P : Node → Prop) (node : Node) : Prop :=
  ∀ depth, ∀ x ∈ node.outline depth, P x.2

theorem Node.mem_outlineAll {nodes : List Node} (h : x ∈ Node.outlineAll nodes depth) :
    ∃ node ∈ nodes, x ∈ node.outline depth := by
  induction nodes with
  | nil => cases h
  | cons node rest ih =>
    rw [Node.outlineAll] at h
    rcases List.mem_append.mp h with h | h
    · exact ⟨node, List.mem_cons_self, h⟩
    · obtain ⟨other, hother, hx⟩ := ih h
      exact ⟨other, List.mem_cons_of_mem _ hother, hx⟩

theorem Node.everywhere_of_children {node : Node} (h : P node)
    (hchildren : ∀ child ∈ node.children, child.Everywhere P) : node.Everywhere P := by
  obtain ⟨rule, span, children⟩ := node
  intro depth x hx
  rw [Node.outline] at hx
  rcases List.mem_cons.mp hx with rfl | hx
  · exact h
  · obtain ⟨child, hchild, hx⟩ := Node.mem_outlineAll hx
    exact hchildren child hchild _ x hx

/-- A node and all nodes below it follow their productions. -/
def Node.Produced (template : List Char) (node : Node) : Prop :=
  node.Everywhere (Node.IsProduction Blanks template)

/-- A node over a text that its gaps and its children make up. -/
theorem Node.produced_of_tiles {t : List Char} {o : Nat} {rule : Rule} {nodes : List Node}
    {gaps : List (List Char)} (hat : IsAt template t o) (htiles : Tiles o t nodes gaps)
    (hparts : rule.Parts (nodes.map (·.rule)))
    (haround : List.Forall₂ (fun (language : List Char → Prop) gap => language gap)
      (rule.around Blanks nodes.length) gaps) (hrule : rule ≠ .normal ∧ rule ≠ .expr)
    (hnodes : ∀ node ∈ nodes, node.Produced template) :
    Node.Produced template ⟨rule, .over o t, nodes⟩ := by
  refine Node.everywhere_of_children ⟨⟨t, hat, rfl⟩, htiles.spaced, hparts, ?_, ?_, ?_⟩ hnodes
  · rw [htiles.gaps_eq hat]
    exact haround
  · exact fun h => absurd h hrule.1
  · exact fun h => absurd h hrule.2

/-! ## Brackets -/

theorem isBracket_of_isMark {c : Char} (h : Reader.isMark c = false) : isBracket c = false := by
  simp only [Reader.isMark, Reader.isCloser, Bool.or_eq_false_iff] at h
  simp [isBracket, groups, h]

theorem Matched.append {t rest : List Char} (ht : ∀ c ∈ t, Reader.isMark c = false)
    (h : Matched rest) : Matched (t ++ rest) := by
  induction t with
  | nil => exact h
  | cons c t ih =>
    refine .char (isBracket_of_isMark (ht c List.mem_cons_self)) (ih ?_)
    exact fun x hx => ht x (List.mem_cons_of_mem c hx)

theorem Node.length_bareAll (template : List Char) (nodes : List Node) :
    (Node.bareAll template nodes).length = nodes.length := by
  induction nodes with
  | nil => rfl
  | cons node rest ih => rw [Node.bareAll, List.length_cons, List.length_cons, ih]

/-- Without gaps there are only the parts. -/
theorem interleave_replicate (parts : List (List Char)) :
    interleave (List.replicate (parts.length + 1) []) parts = parts.flatten := by
  induction parts with
  | nil => rfl
  | cons part parts ih =>
    rw [List.length_cons, List.replicate_succ, interleave, ih]
    rfl

/-! ## Productions of recognized parts -/

/-- The nodes of a part follow their productions. -/
def Sense.Produces (template : List Char) : Sense → Nat → List Char → Prop
  | .element node _, o, t =>
    node.span = .over o t ∧ node.rule.isElement = true ∧ node.Produced template
  | .attributes nodes _, o, t =>
    (∀ node ∈ nodes, node.rule = .attribute ∧ node.Produced template) ∧
      ∃ gaps : List (List Char), gaps.length = nodes.length ∧ (∀ gap ∈ gaps, Blanks gap) ∧
        ∀ gap, Tiles o (t ++ gap) nodes (gaps ++ [gap])
  | .value node _, o, t =>
    node.span = .over o t ∧ node.rule ∈ valueRules ∧ node.Produced template
  | .items nodes _, o, t =>
    (∀ node ∈ nodes, node.rule ∈ itemRules ∧ node.Produced template) ∧
      Tiles o t nodes (List.replicate (nodes.length + 1) [])
  | .item node _, o, t =>
    node.span = .over o t ∧ node.rule ∈ itemRules ∧ node.Produced template
  | .pieces _ nodes _, o, t =>
    (∀ node ∈ nodes, node.rule ∈ pieceRules ∧ node.Produced template) ∧
      Tiles o t nodes (List.replicate (nodes.length + 1) []) ∧
      Matched (Node.bareAll template nodes).flatten
  | .piece _ node _, o, t =>
    node.span = .over o t ∧ node.rule ∈ pieceRules ∧ node.Produced template ∧
      ∀ rest, Matched rest → Matched (node.bare template ++ rest)
  | .noNested, _, _ => True
  | .noDict, _, _ => True

section Steps

variable {template : List Char} {e : Element} {as moreAttrs : List Attribute}
  {attrValue : AttributeValue} {contents : List ContentItem} {item : ContentItem}
  {cells moreCells : List SourceCell} {language : List Char → Prop} {stopAtColon : Bool}
  {w name w' text u u' : List Char} {attrs : List Node}

/-- A leaf whose text is in the language of its rule. -/
theorem produced_leaf {rule : Rule} {o : Nat} {t : List Char} (hat : IsAt template t o)
    (hrule : rule.around Blanks 0 = [language]) (hparts : rule.Parts []) (ht : language t)
    (hne : rule ≠ .normal ∧ rule ≠ .expr) :
    (Node.leafOver rule o t).Produced template := by
  refine Node.produced_of_tiles hat .last hparts ?_ hne (List.forall_mem_nil _)
  rw [show ([] : List Node).length = 0 from rfl, hrule]
  exact .cons ht .nil

theorem forall₂_replicate {n : Nat} {gaps : List (List Char)} (hlength : gaps.length = n)
    (h : ∀ gap ∈ gaps, language gap) :
    List.Forall₂ (fun (language : List Char → Prop) gap => language gap)
      (List.replicate n language) gaps := by
  subst hlength
  induction gaps with
  | nil => exact .nil
  | cons gap gaps ih =>
    exact .cons (h gap List.mem_cons_self) (ih fun g hg => h g (List.mem_cons_of_mem _ hg))

theorem forall₂_empty (n : Nat) :
    List.Forall₂ (fun (language : List Char → Prop) gap => language gap)
      (List.replicate n (· = [])) (List.replicate n []) :=
  forall₂_replicate List.length_replicate fun _ hgap => List.eq_of_mem_replicate hgap

theorem Tiles.bare_expr {o : Nat} {t : List Char} {nodes : List Node}
    (htiles : Tiles o t nodes (List.replicate (nodes.length + 1) [])) (hat : IsAt template t o) :
    (Node.exprOver o t nodes).bare template = (Node.bareAll template nodes).flatten := by
  have hbare : (Node.exprOver o t nodes).bare template =
      interleave (Node.gaps template (.exprOver o t nodes)) (Node.bareAll template nodes) := by
    rw [Node.exprOver, Node.bare]
    all_goals simp
  have hgaps : (Node.exprOver o t nodes).gaps template = _ := htiles.gaps_eq hat .expr
  rw [hbare, hgaps, ← Node.length_bareAll template, interleave_replicate]

theorem produced_expr {o : Nat} {t : List Char} {nodes : List Node} (hat : IsAt template t o)
    (ih : (Sense.pieces stopAtColon nodes cells).Produces template o t) :
    (Node.exprOver o t nodes).Produced template := by
  obtain ⟨hnodes, htiles, hmatched⟩ := ih
  refine Node.everywhere_of_children ?_ fun child hchild => (hnodes child hchild).2
  refine ⟨⟨t, hat, rfl⟩, htiles.spaced, ?_, ?_, nofun, fun _ => ?_⟩
  · intro rule hrule
    obtain ⟨node, hnode, rfl⟩ := List.mem_map.mp hrule
    exact (hnodes node hnode).1
  · rw [show (Node.exprOver o t nodes).gaps template = _ from htiles.gaps_eq hat .expr]
    exact forall₂_empty _
  · rw [htiles.bare_expr hat]
    exact hmatched

/-! ### Elements and their attributes -/

/-- The tags with a name and attributes, and what closes them. -/
def tagEnds : List (Rule × List Char) :=
  [(.selfClosing, ['/', '>']), (.openTag, ['>'])]

/-- An open tag or the tag of a self-closing element. -/
theorem produced_tag {rule : Rule} {mark : List Char} {o : Nat} {t : List Char}
    (hrule : (rule, mark) ∈ tagEnds) (hw : Blanks w) (hname : IsMarkupName name) (hw' : Blanks w')
    (htext : text = '<' :: w ++ name ++ t ++ w' ++ mark) (hat : IsAt template text o)
    (ih : (Sense.attributes attrs as).Produces template (o + byteLength ('<' :: w ++ name)) t) :
    Node.Produced template ⟨rule, .over o text,
      .leafOver .tagName (o + byteLength ('<' :: w)) name :: attrs⟩ := by
  obtain ⟨hattrs, gaps, hlength, hgaps, htiles⟩ := ih
  have hparts : ('<' :: w) ++ name ++ (t ++ (w' ++ mark)) = text := by
    rw [htext]
    simp
  have hall : Tiles o text (.leafOver .tagName (o + byteLength ('<' :: w)) name :: attrs)
      (('<' :: w) :: (gaps ++ [w' ++ mark])) := by
    rw [← hparts]
    exact .node rfl (htiles _)
  have hrules : attrs.map (·.rule) = List.replicate attrs.length .attribute := by
    refine List.eq_replicate_iff.mpr ⟨List.length_map _, fun r hr => ?_⟩
    obtain ⟨node, hnode, rfl⟩ := List.mem_map.mp hr
    exact (hattrs node hnode).1
  have haround : List.Forall₂ (fun (language : List Char → Prop) gap => language gap)
      (OpensWith ['<'] Blanks :: (List.replicate attrs.length Blanks ++ [ClosesWith Blanks mark]))
      (('<' :: w) :: (gaps ++ [w' ++ mark])) :=
    .cons ⟨w, hw, rfl⟩ (List.rel_append (forall₂_replicate hlength hgaps)
      (.cons ⟨w', hw', rfl⟩ .nil))
  have hleaf : (Node.leafOver .tagName (o + byteLength ('<' :: w)) name).Produced template := by
    rw [← hparts] at hat
    exact produced_leaf hat.part rfl rfl hname (by decide)
  have hnodes := List.forall_mem_cons.mpr ⟨hleaf, fun node hnode => (hattrs node hnode).2⟩
  simp only [tagEnds, List.mem_cons, Prod.mk.injEq, List.not_mem_nil, or_false] at hrule
  rcases hrule with ⟨rfl, rfl⟩ | ⟨rfl, rfl⟩ <;>
    exact Node.produced_of_tiles hat hall ⟨_, congrArg (List.cons _) hrules⟩ haround (by decide) hnodes

theorem produced_closeTag {o : Nat} (hu : Blanks u) (hname : IsMarkupName name)
    (hu' : Blanks u') (htext : text = '<' :: '/' :: u ++ name ++ u' ++ ['>'])
    (hat : IsAt template text o) :
    Node.Produced template ⟨.closeTag, .over o text,
      [.leafOver .tagName (o + byteLength ('<' :: '/' :: u)) name]⟩ := by
  have hparts : ('<' :: '/' :: u) ++ name ++ (u' ++ ['>']) = text := by
    rw [htext]
    simp
  rw [← hparts] at hat ⊢
  refine Node.produced_of_tiles hat (.node rfl .last) rfl ?_ (by decide) ?_
  · exact .cons ⟨u, hu, rfl⟩ (.cons ⟨u', hu', rfl⟩ .nil)
  · exact List.forall_mem_singleton.mpr (produced_leaf hat.part rfl rfl hname (by decide))

theorem produced_content {o : Nat} {t : List Char} {nodes : List Node} (hat : IsAt template t o)
    (ih : (Sense.items nodes contents).Produces template o t) :
    Node.Produced template ⟨.content, .over o t, nodes⟩ := by
  obtain ⟨hnodes, htiles⟩ := ih
  refine Node.produced_of_tiles hat htiles ?_ (forall₂_empty _) (by decide) fun node hnode =>
    (hnodes node hnode).2
  intro rule hrule
  obtain ⟨node, hnode, rfl⟩ := List.mem_map.mp hrule
  exact (hnodes node hnode).1

theorem produces_normal {o : Nat} {t opening v body closing : List Char} {items : List Node}
    (hw : Blanks w) (hname : IsMarkupName name) (hw' : Blanks w')
    (hopening : opening = '<' :: w ++ name ++ t ++ w' ++ ['>']) (hv : Blanks v) (hu : Blanks u)
    (hu' : Blanks u') (hclosing : closing = '<' :: '/' :: u ++ name ++ u' ++ ['>'])
    (hat : IsAt template (opening ++ v ++ body ++ closing) o)
    (ih₁ : (Sense.attributes attrs as).Produces template (o + byteLength ('<' :: w ++ name)) t)
    (ih₂ : (Sense.items items contents).Produces template (o + byteLength (opening ++ v)) body) :
    (Sense.element ⟨.normal, .over o (opening ++ v ++ body ++ closing),
        [⟨.openTag, .over o opening,
            .leafOver .tagName (o + byteLength ('<' :: w)) name :: attrs⟩,
          ⟨.content, .over (o + byteLength (opening ++ v)) body, items⟩,
          ⟨.closeTag, .over (o + byteLength (opening ++ v ++ body)) closing,
            [.leafOver .tagName
              (o + byteLength (opening ++ v ++ body ++ '<' :: '/' :: u)) name]⟩]⟩ e).Produces
      template o (opening ++ v ++ body ++ closing) := by
  have hopen : IsAt template opening o := hat.front.front.front
  have hbody : IsAt template body (o + byteLength (opening ++ v)) := hat.front.back
  have hclose := hat.back
  have hleaf : o + byteLength (opening ++ v ++ body ++ '<' :: '/' :: u) =
      o + byteLength (opening ++ v ++ body) + byteLength ('<' :: '/' :: u) := by
    rw [Text.byteLength_append, Nat.add_assoc]
  have hrule : (.openTag, ['>']) ∈ tagEnds := by decide
  have hopenTag := produced_tag hrule hw hname hw' hopening hopen ih₁
  have hcloseTag := produced_closeTag hu hname hu' hclosing hclose
  have hcontent := produced_content hbody ih₂
  have hname₁ : IsAt template name (o + byteLength ('<' :: w)) := by
    refine IsAt.part (b := t ++ w' ++ ['>']) ?_
    rw [hopening] at hopen
    simpa using hopen
  have hname₂ := (hclosing ▸ hclose).front.front.back
  have hparts : [] ++ opening ++ (v ++ body ++ ([] ++ closing ++ [])) =
      opening ++ v ++ body ++ closing := by
    simp
  have hall : Tiles o (opening ++ v ++ body ++ closing)
      [⟨.openTag, .over o opening, .leafOver .tagName (o + byteLength ('<' :: w)) name :: attrs⟩,
        ⟨.content, .over (o + byteLength (opening ++ v)) body, items⟩,
        ⟨.closeTag, .over (o + byteLength (opening ++ v ++ body)) closing,
          [.leafOver .tagName
            (o + byteLength (opening ++ v ++ body) + byteLength ('<' :: '/' :: u)) name]⟩]
      [[], v, [], []] := by
    rw [← hparts]
    refine .node ?_ (.node ?_ (.node ?_ .last)) <;> simp [Nat.add_assoc]
  rw [hleaf]
  refine ⟨rfl, rfl, Node.everywhere_of_children ?_ ?_⟩
  · refine ⟨⟨_, hat, rfl⟩, hall.spaced, rfl, ?_, fun _ => ?_, nofun⟩
    · rw [hall.gaps_eq hat]
      exact .cons rfl (.cons hv (.cons (fun _ hx => nomatch hx) (.cons rfl .nil)))
    · refine ⟨_, _, _, _, _, rfl, rfl, rfl, ?_⟩
      exact hname₁.slice.trans hname₂.slice.symm
  · exact List.forall_mem_cons.mpr ⟨hopenTag, List.forall_mem_cons.mpr
      ⟨hcontent, List.forall_mem_singleton.mpr hcloseTag⟩⟩

theorem produces_attribute {o : Nat} {t rest : List Char} {value : Node} (hw : Blanks w)
    (hname : IsMarkupName name) (hu : Blanks u) (hu' : Blanks u')
    (htext : text = name ++ u ++ '=' :: u' ++ t) (hat : IsAt template (w ++ text ++ rest) o)
    (ih₁ : (Sense.value value attrValue).Produces template
      (o + byteLength (w ++ name ++ u ++ '=' :: u')) t)
    (ih₂ : (Sense.attributes attrs as).Produces template (o + byteLength (w ++ text)) rest) :
    (Sense.attributes (⟨.attribute, .over (o + byteLength w) text,
      [.leafOver .attrName (o + byteLength w) name, value]⟩ :: attrs) moreAttrs).Produces template o
      (w ++ text ++ rest) := by
  obtain ⟨hspan, hvalue, heverywhere⟩ := ih₁
  obtain ⟨hattrs, gaps, hlength, hgaps, htiles⟩ := ih₂
  have htextAt : IsAt template text (o + byteLength w) := hat.front.back
  have hnameAt : IsAt template name (o + byteLength w) := by
    rw [htext] at htextAt
    exact htextAt.front.front.front
  have hparts : [] ++ name ++ ((u ++ '=' :: u') ++ t ++ []) = text := by
    rw [htext]
    simp
  have hall : Tiles (o + byteLength w) text [.leafOver .attrName (o + byteLength w) name, value]
      [[], u ++ '=' :: u', []] := by
    rw [← hparts]
    refine .node ?_ (.node ?_ .last)
    · simp [Node.leafOver, Node.leaf]
    · rw [hspan]
      simp [Nat.add_assoc]
  have hattr : Node.Produced template ⟨.attribute, .over (o + byteLength w) text,
      [.leafOver .attrName (o + byteLength w) name, value]⟩ := by
    refine Node.produced_of_tiles htextAt hall ⟨_, hvalue, rfl⟩ ?_ (by decide) ?_
    · exact .cons rfl (.cons ⟨u, u', hu, hu', rfl⟩ (.cons rfl .nil))
    · exact List.forall_mem_cons.mpr ⟨produced_leaf hnameAt rfl rfl hname (by decide),
        List.forall_mem_singleton.mpr heverywhere⟩
  refine ⟨List.forall_mem_cons.mpr ⟨⟨rfl, hattr⟩, hattrs⟩, w :: gaps, congrArg (· + 1) hlength,
    List.forall_mem_cons.mpr ⟨hw, hgaps⟩, fun gap => ?_⟩
  rw [List.append_assoc (w ++ text)]
  exact .node rfl (htiles gap)

/-! ### Brackets -/

theorem tiles_group {o : Nat} {opening closing : Char} {t : List Char} {nodes : List Node}
    (hsize : opening.utf8Size = 1) :
    Tiles o (opening :: t ++ [closing]) [.exprOver (o + 1) t nodes] [[opening], [closing]] := by
  have htiles : Tiles o ([opening] ++ t ++ [closing]) [.exprOver (o + 1) t nodes]
      [[opening], [closing]] := by
    refine .node ?_ .last
    rw [Text.byteLength_cons, hsize]
    rfl
  exact htiles

theorem produced_group {o : Nat} {rule : Rule} {opening closing : Char} {t : List Char}
    {nodes : List Node} (haround : rule.around Blanks 1 = [(· = [opening]), (· = [closing])])
    (hparts : rule.Parts [.expr]) (hne : rule ≠ .normal ∧ rule ≠ .expr)
    (hsize : opening.utf8Size = 1) (hat : IsAt template (opening :: t ++ [closing]) o)
    (ih : IsAt template t (o + 1) →
      (Sense.pieces stopAtColon nodes cells).Produces template (o + 1) t) :
    Node.Produced template
      ⟨rule, .over o (opening :: t ++ [closing]), [.exprOver (o + 1) t nodes]⟩ := by
  refine Node.produced_of_tiles hat (tiles_group hsize) hparts ?_ hne ?_
  · rw [show [Node.exprOver (o + 1) t nodes].length = 1 from rfl, haround]
    exact .cons rfl (.cons rfl .nil)
  · exact List.forall_mem_singleton.mpr
      (produced_expr (hat.inside hsize) (ih (hat.inside hsize)))

theorem produces_dict {o : Nat} {key value : List Char} {keys values : List Node}
    (hat : IsAt template ('\x7b' :: key ++ ':' :: value ++ ['\x7d']) o)
    (ih₁ : IsAt template key (o + 1) →
      (Sense.pieces true keys cells).Produces template (o + 1) key)
    (ih₂ : IsAt template value (o + byteLength ('\x7b' :: key ++ [':'])) →
      (Sense.pieces false values moreCells).Produces template
        (o + byteLength ('\x7b' :: key ++ [':'])) value) :
    (Sense.value ⟨.dictShorthand, .over o ('\x7b' :: key ++ ':' :: value ++ ['\x7d']),
      [.exprOver (o + 1) key keys,
        .exprOver (o + byteLength ('\x7b' :: key ++ [':'])) value values]⟩ attrValue).Produces
      template o ('\x7b' :: key ++ ':' :: value ++ ['\x7d']) := by
  have hparts : ['\x7b'] ++ key ++ ([':'] ++ value ++ ['\x7d']) =
      '\x7b' :: key ++ ':' :: value ++ ['\x7d'] := by
    simp
  have hall : Tiles o ('\x7b' :: key ++ ':' :: value ++ ['\x7d'])
      [.exprOver (o + 1) key keys,
        .exprOver (o + byteLength ('\x7b' :: key ++ [':'])) value values]
      [['\x7b'], [':'], ['\x7d']] := by
    rw [← hparts]
    refine .node rfl (.node ?_ .last)
    simp [Node.exprOver, Nat.add_assoc]
  have hkey : IsAt template key (o + 1) := by
    rw [← hparts] at hat
    exact hat.part
  have hvalue : IsAt template value (o + byteLength ('\x7b' :: key ++ [':'])) := by
    refine IsAt.part (b := ['\x7d']) ?_
    simpa using hat
  have hrule : Rule.dictShorthand ∈ valueRules := by decide
  refine ⟨rfl, hrule, Node.produced_of_tiles hat hall rfl ?_ (by decide) ?_⟩
  · exact .cons rfl (.cons rfl (.cons rfl .nil))
  · exact List.forall_mem_cons.mpr ⟨produced_expr hkey (ih₁ hkey),
      List.forall_mem_singleton.mpr (produced_expr hvalue (ih₂ hvalue))⟩

/-! ### Pieces of expressions -/

theorem produces_pieces {o : Nat} {t : List Char} {node : Node} {nodes : List Node}
    (ih₁ : (Sense.piece stopAtColon node cells).Produces template o t)
    (ih₂ : (Sense.pieces stopAtColon nodes moreCells).Produces template (o + byteLength t) u) :
    (Sense.pieces stopAtColon (node :: nodes) (cells ++ moreCells)).Produces template o (t ++ u) := by
  obtain ⟨hspan, hrule, hnode, hbare⟩ := ih₁
  obtain ⟨hnodes, htiles, hmatched⟩ := ih₂
  refine ⟨List.forall_mem_cons.mpr ⟨⟨hrule, hnode⟩, hnodes⟩, .first hspan htiles, ?_⟩
  rw [Node.bareAll, List.flatten_cons]
  exact hbare _ hmatched

theorem produces_items {o : Nat} {t : List Char} {node : Node} {nodes : List Node}
    (ih₁ : (Sense.item node item).Produces template o t)
    (ih₂ : (Sense.items nodes contents).Produces template (o + byteLength t) u) :
    (Sense.items (node :: nodes) (item :: contents)).Produces template o (t ++ u) := by
  obtain ⟨hspan, hrule, hnode⟩ := ih₁
  obtain ⟨hnodes, htiles⟩ := ih₂
  exact ⟨List.forall_mem_cons.mpr ⟨⟨hrule, hnode⟩, hnodes⟩, .first hspan htiles⟩

theorem produces_group {o : Nat} {rule : Rule} {opening closing : Char} {t : List Char}
    {nodes : List Node} (hgroup : (rule, opening, closing) ∈ groups)
    (hat : IsAt template (opening :: t ++ [closing]) o)
    (ih : IsAt template t (o + 1) → (Sense.pieces false nodes cells).Produces template (o + 1) t) :
    (Sense.piece stopAtColon ⟨rule, .over o (opening :: t ++ [closing]),
      [.exprOver (o + 1) t nodes]⟩ moreCells).Produces template o (opening :: t ++ [closing]) := by
  have hsize := utf8Size_of_group hgroup
  have hinner := hat.inside hsize
  obtain ⟨-, htiles, hmatched⟩ := ih hinner
  have hrule : (rule.around Blanks 1 = [(· = [opening]), (· = [closing])] ∧ rule.Parts [.expr] ∧
      rule ≠ .normal ∧ rule ≠ .expr) ∧ rule ∈ pieceRules ∧ Node.bare template
      ⟨rule, .over o (opening :: t ++ [closing]), [.exprOver (o + 1) t nodes]⟩ =
        interleave (Node.gaps template
          ⟨rule, .over o (opening :: t ++ [closing]), [.exprOver (o + 1) t nodes]⟩)
          [(Node.exprOver (o + 1) t nodes).bare template] := by
    simp only [groups, List.mem_cons, Prod.mk.injEq, List.not_mem_nil, or_false] at hgroup
    rcases hgroup with ⟨rfl, rfl, rfl⟩ | ⟨rfl, rfl, rfl⟩ | ⟨rfl, rfl, rfl⟩ <;>
      exact ⟨⟨rfl, rfl, by decide⟩, by decide, rfl⟩
  obtain ⟨⟨haround, hparts, hne⟩, hpiece, hbare⟩ := hrule
  refine ⟨rfl, hpiece, produced_group haround hparts hne hsize hat ih, ?_⟩
  intro rest hrest
  rw [hbare, (tiles_group hsize).gaps_eq hat, htiles.bare_expr hinner]
  have hbrackets := Matched.group hgroup hmatched hrest
  simpa [interleave] using hbrackets

theorem produces_nested {o : Nat} {t : List Char} {node : Node} (hw : Blanks w) (hw' : Blanks w')
    (htext : text = '(' :: w ++ t ++ w' ++ [')']) (hat : IsAt template text o)
    (ih : IsAt template t (o + byteLength ('(' :: w)) →
      (Sense.element node e).Produces template (o + byteLength ('(' :: w)) t) :
    (Sense.piece stopAtColon ⟨.nestedElement, .over o text, [node]⟩ cells).Produces template o text := by
  have hparts : ('(' :: w) ++ t ++ (w' ++ [')']) = text := by
    rw [htext]
    simp
  rw [← hparts] at hat ⊢
  obtain ⟨hspan, hrule, hnode⟩ := ih hat.part
  have hpiece : Rule.nestedElement ∈ pieceRules := by decide
  refine ⟨rfl, hpiece, Node.produced_of_tiles hat (.node hspan .last) ⟨_, hrule, rfl⟩ ?_ (by decide)
    (List.forall_mem_singleton.mpr hnode), fun rest hrest => hrest⟩
  exact .cons ⟨w, hw, rfl⟩ (.cons ⟨w', hw', rfl⟩ .nil)

end Steps

theorem Recognizes.produces {sense : Sense} {o : Nat} {t rest : List Char}
    (h : Recognizes sense o t rest) (hat : IsAt template t o) : sense.Produces template o t := by
  induction h with
  | @selfClosing o w name t w' attrs as text rest hw hname _ _ hw' htext ih =>
    have hrule : (.selfClosing, ['/', '>']) ∈ tagEnds := by decide
    have hattrs : IsAt template t (o + byteLength ('<' :: w ++ name)) := by
      rw [htext] at hat
      exact hat.front.front.back
    exact ⟨rfl, rfl, produced_tag hrule hw hname hw' htext hat (ih hattrs)⟩
  | @normal o w name t w' attrs as opening v body items contents u u' closing rest hw hname _ _ hw'
      hopening hv _ _ hu hu' hclosing ih₁ ih₂ =>
    have hattrs : IsAt template t (o + byteLength ('<' :: w ++ name)) := by
      have hopen : IsAt template opening o := hat.front.front.front
      rw [hopening] at hopen
      exact hopen.front.front.back
    exact produces_normal hw hname hw' hopening hv hu hu' hclosing hat (ih₁ hattrs)
      (ih₂ hat.front.back)
  | noAttributes =>
    exact ⟨List.forall_mem_nil _, [], rfl, List.forall_mem_nil _, fun gap => .last⟩
  | @moreAttributes o w name u u' t node value text more attrs as rest hw hname hu hu' _ htext _ ih₁
      ih₂ =>
    have hvalue : IsAt template t (o + byteLength (w ++ name ++ u ++ '=' :: u')) := by
      refine IsAt.part (b := more) ?_
      rw [htext] at hat
      simpa using hat
    exact produces_attribute hw hname hu hu' htext hat (ih₁ hvalue) (ih₂ hat.back)
  | quoted hquote hbody =>
    have hrule : Rule.quotedLiteral ∈ valueRules := by decide
    exact ⟨rfl, hrule, produced_leaf hat rfl rfl ⟨_, _, hquote, hbody, rfl⟩ (by decide)⟩
  | dict _ _ ih₁ ih₂ => exact produces_dict hat ih₁ ih₂
  | braces _ _ _ ih =>
    have hrule : Rule.exprValue ∈ valueRules := by decide
    exact ⟨rfl, hrule, produced_group rfl rfl (by decide) rfl hat ih⟩
  | brackets _ ih =>
    have hrule : Rule.exprListValue ∈ valueRules := by decide
    exact ⟨rfl, hrule, produced_group rfl rfl (by decide) rfl hat ih⟩
  | noItems => exact ⟨List.forall_mem_nil _, .last⟩
  | items _ _ ih₁ ih₂ => exact produces_items (ih₁ hat.front) (ih₂ hat.back)
  | @elementItem o t node e rest _ ih =>
    obtain ⟨hspan, hrule, hnode⟩ := ih hat
    refine ⟨hspan, ?_, hnode⟩
    generalize node.rule = rule at hrule ⊢
    cases rule <;> first | decide | exact absurd hrule (by decide)
  | braceItem _ ih =>
    have hrule : Rule.contentExpr ∈ itemRules := by decide
    exact ⟨rfl, hrule, produced_group rfl rfl (by decide) rfl hat ih⟩
  | bracketItem _ ih =>
    have hrule : Rule.contentExprList ∈ itemRules := by decide
    exact ⟨rfl, hrule, produced_group rfl rfl (by decide) rfl hat ih⟩
  | text hne hfree _ =>
    have hfree : ∀ c ∈ _, Reader.isContentMark c = false := fun c hc => by simpa using hfree c hc
    have hrule : Rule.text ∈ itemRules := by decide
    exact ⟨rfl, hrule, produced_leaf hat rfl rfl ⟨hne, hfree⟩ (by decide)⟩
  | noPieces => exact ⟨List.forall_mem_nil _, .last, .nil⟩
  | pieces _ _ ih₁ ih₂ => exact produces_pieces (ih₁ hat.front) (ih₂ hat.back)
  | string ht _ =>
    have hrule : Rule.stringLiteral ∈ pieceRules := by decide
    exact ⟨rfl, hrule, produced_leaf hat rfl rfl ht (by decide), fun _ hrest => hrest⟩
  | @plain o stopAtColon t rest hne hfree _ =>
    have hmarks : ∀ c ∈ t, Reader.isMark c = false := by
      intro c hc
      have hplain := hfree c hc
      simp only [isPlainChar, Bool.and_eq_true, Bool.not_eq_true'] at hplain
      exact hplain.1
    have hrule : Rule.plain ∈ pieceRules := by decide
    refine ⟨rfl, hrule, produced_leaf hat rfl rfl ⟨hne, hmarks⟩ (by decide), ?_⟩
    intro rest hrest
    have hbare : (Node.leafOver .plain o t).bare template = t := by
      change interleave (Node.gaps template ⟨.plain, .over o t, []⟩) [] = t
      rw [Tiles.last.gaps_eq hat]
      simp [interleave]
    rw [hbare]
    exact .append hmarks hrest
  | group hgroup _ _ _ ih => exact produces_group hgroup hat ih
  | nested hw _ hw' htext ih => exact produces_nested hw hw' htext hat ih
  | _ => exact trivial

/-- Every node of a tree that is read follows the production of its rule, with blanks next to the
marks of tags. -/
theorem Node.isProduction_of_parse {template : List Char} {tree : Node}
    (h : Node.parse template = .ok tree) :
    tree.rule = .document ∧ tree.span = .over 0 template ∧
      ∀ x ∈ tree.outline 0, x.2.IsProduction Blanks template := by
  obtain ⟨w, t, w', node, e, htext, hw, hw', rfl, hnode⟩ := Node.recognizes_of_parse h
  have hat : IsAt template (w ++ t ++ w') 0 := ⟨[], [], by simp [htext], rfl⟩
  have hinner : IsAt template t (byteLength w) := by
    have hinner := hat.part
    rw [Nat.zero_add] at hinner
    exact hinner
  obtain ⟨hspan, hrule, heverywhere⟩ := hnode.produces hinner
  have hall : Tiles 0 template [node] [w, w'] := by
    rw [htext]
    refine .node ?_ .last
    rw [Nat.zero_add]
    exact hspan
  have htree : Node.Produced template ⟨.document, .over 0 template, [node]⟩ := by
    rw [← htext] at hat
    refine Node.produced_of_tiles hat hall ⟨_, hrule, rfl⟩ ?_ (by decide)
      (List.forall_mem_singleton.mpr heverywhere)
    exact .cons hw (.cons hw' .nil)
  exact ⟨rfl, rfl, htree 0⟩

/-- A key that is a bracket in quotes, a nested element, and brackets in braces. -/
theorem Node.isProduction_of_parse_nested :
    ∃ tree, Node.parse "<a x=\x7b'(':(<b/>)\x7d>\x7b[1]\x7d</a>".toList = .ok tree ∧
      tree.span = ⟨0, 27⟩ ∧ ∀ x ∈ tree.outline 0,
        x.2.IsProduction Blanks "<a x=\x7b'(':(<b/>)\x7d>\x7b[1]\x7d</a>".toList := by
  have hread : ∃ tree, Node.parse "<a x=\x7b'(':(<b/>)\x7d>\x7b[1]\x7d</a>".toList = .ok tree := by
    refine ⟨?tree, ?parse⟩
    case parse => set_option maxRecDepth 2000 in cbv; rfl
  obtain ⟨tree, htree⟩ := hread
  obtain ⟨-, hspan, hall⟩ := Node.isProduction_of_parse htree
  exact ⟨tree, htree, hspan, hall⟩

/-- Blanks next to the marks of tags are read: with nothing but the marks allowed there, none of these
tags follows its production. -/
theorem Node.exists_margins_of_parse :
    ∃ tree, Node.parse "< a >< b /></ a >".toList = .ok tree ∧
      ∀ rule ∈ [.openTag, .selfClosing, .closeTag], ∃ x ∈ tree.outline 0,
        x.2.rule = rule ∧ ¬ x.2.IsProduction (· = []) "< a >< b /></ a >".toList := by
  refine ⟨?tree, ?parse, ?margins⟩
  case parse => cbv; rfl
  case margins =>
    intro rule hrule
    simp only [List.mem_cons, List.not_mem_nil, or_false] at hrule
    rcases hrule with rfl | rfl | rfl
    · refine ⟨_, List.mem_of_getElem? (i := 2) rfl, rfl, fun h => ?_⟩
      obtain ⟨w, rfl, hgap⟩ := (List.forall₂_cons.mp h.around).1
      exact absurd hgap (by decide)
    · refine ⟨_, List.mem_of_getElem? (i := 5) rfl, rfl, fun h => ?_⟩
      obtain ⟨w, rfl, hgap⟩ := (List.forall₂_cons.mp h.around).1
      exact absurd hgap (by decide)
    · refine ⟨_, List.mem_of_getElem? (i := 7) rfl, rfl, fun h => ?_⟩
      obtain ⟨w, rfl, hgap⟩ := (List.forall₂_cons.mp h.around).1
      exact absurd hgap (by decide)

end ComponentMarkup
