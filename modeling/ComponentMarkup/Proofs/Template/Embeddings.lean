import ComponentMarkup.Proofs.Element.Reducing
import ComponentMarkup.Proofs.Template.CellTokens

/-!
# Embedded expressions and the nodes that hold them

An expression of a template is held by a node of the tree: a key and a value between braces, an
expression between braces, or one between brackets. The rule of that node decides what kind of fragment
the expression becomes. `Node.holders` lists what holds the expressions of a tree and
`Element.embeddings` the expressions of an element with their kinds; for the element of a tree the two
lists agree one by one. The source of a key and a value has the braces around all of it.
-/

namespace ComponentMarkup

open Text (byteLength)

variable {sense : Sense} {o : Nat} {t rest : List Char}

/-! ## Expressions with their kinds -/

/-- An expression of a template and the kind of fragment it becomes. -/
structure Embedding where
  kind : FragmentKind
  source : EmbeddedExpr

mutual

/-- All expressions of an element, at any depth, with their kinds. -/
def Element.embeddings (e : Element) : List Embedding :=
  match e with
  | ⟨_, attrs, content, _⟩ =>
    Attribute.embeddingsOfAll attrs ++ ContentItem.embeddingsOfOptional content

def Attribute.embeddingsOfAll (attrs : List Attribute) : List Embedding :=
  match attrs with
  | [] => []
  | ⟨_, value, _⟩ :: rest => value.embeddings ++ Attribute.embeddingsOfAll rest

def AttributeValue.embeddings (value : AttributeValue) : List Embedding :=
  match value with
  | .literal _ => []
  | .expr source => source.embeddings .scalar
  | .spread source => source.embeddings .list

def ContentItem.embeddingsOfOptional (content : Option (List ContentItem)) : List Embedding :=
  match content with
  | none => []
  | some items => ContentItem.embeddingsOfAll items

def ContentItem.embeddingsOfAll (items : List ContentItem) : List Embedding :=
  match items with
  | [] => []
  | item :: rest => item.embeddings ++ ContentItem.embeddingsOfAll rest

def ContentItem.embeddings (item : ContentItem) : List Embedding :=
  match item with
  | .element e => e.embeddings
  | .literal _ => []
  | .expr source => source.embeddings .scalar
  | .spread source => source.embeddings .list

/-- An expression of a kind and all expressions of the elements nested in it. -/
def EmbeddedExpr.embeddings (kind : FragmentKind) (source : EmbeddedExpr) : List Embedding :=
  match source with
  | ⟨span, segments⟩ => ⟨kind, ⟨span, segments⟩⟩ :: Segment.embeddingsOfAll segments

def Segment.embeddingsOfAll (segments : List Segment) : List Embedding :=
  match segments with
  | [] => []
  | ⟨_, _, none⟩ :: rest => Segment.embeddingsOfAll rest
  | ⟨_, _, some e⟩ :: rest => e.embeddings ++ Segment.embeddingsOfAll rest

end

/-- All expressions of a part, with their kinds. -/
def Element.Part.embeddings : Part → List Embedding
  | .element e => e.embeddings
  | .attributes attrs => Attribute.embeddingsOfAll attrs
  | .value v => v.embeddings
  | .content items? => ContentItem.embeddingsOfOptional items?
  | .items is => ContentItem.embeddingsOfAll is
  | .item i => i.embeddings
  | .source kind inner => inner.embeddings kind
  | .segments ss => Segment.embeddingsOfAll ss

theorem Element.Part.map_source_embeddings (part : Part) :
    part.embeddings.map Embedding.source = part.sources := by
  induction part with
  | element _ _ _ _ ih₁ ih₂ | moreAttributes _ _ _ _ ih₁ ih₂ | moreItems _ _ ih₁ ih₂
  | nestedSegment _ _ _ _ ih₁ ih₂ => exact List.map_append.trans (congrArg₂ (· ++ ·) ih₁ ih₂)
  | source _ _ _ ih => exact congrArg (_ :: ·) ih
  | noAttributes | literalValue | noContent | noItems | literalItem | noSegments => rfl
  | exprValue _ ih | spreadValue _ ih | someContent _ ih | elementItem _ ih | exprItem _ ih
  | spreadItem _ ih | rawSegment _ _ _ ih => exact ih

/-- An expression without its spans. -/
def Embedding.unplaced (embedding : Embedding) : Embedding :=
  ⟨embedding.kind, embedding.source.unplaced⟩

theorem Element.Part.embeddings_unplaced (part : Part) :
    part.unplaced.embeddings = part.embeddings.map Embedding.unplaced := by
  induction part with
  | element _ _ _ _ ih₁ ih₂ | moreAttributes _ _ _ _ ih₁ ih₂ | moreItems _ _ ih₁ ih₂
  | nestedSegment _ _ _ _ ih₁ ih₂ =>
    exact (congrArg₂ (· ++ ·) ih₁ ih₂).trans List.map_append.symm
  | source _ _ _ ih => exact congrArg (_ :: ·) ih
  | noAttributes | literalValue | noContent | noItems | literalItem | noSegments => rfl
  | exprValue _ ih | spreadValue _ ih | someContent _ ih | elementItem _ ih | exprItem _ ih
  | spreadItem _ ih | rawSegment _ _ _ ih => exact ih

/-- Dropping blanks at the end of content drops no expression. -/
theorem embeddingsOfAll_trimContent (items : List ContentItem) :
    ContentItem.embeddingsOfAll (Reduction.trimContent items) = ContentItem.embeddingsOfAll items := by
  fun_induction Reduction.trimContent items with
  | case1 => rfl
  | case2 => rfl
  | case3 => rfl
  | case4 item rest _ ih => rw [ContentItem.embeddingsOfAll, ContentItem.embeddingsOfAll, ih]

/-! ### Of cells -/

/-- All expressions of the element in a gap. -/
def SourceCell.embeddings : SourceCell → List Embedding
  | .own _ => []
  | .gap (_, e) => e.embeddings

theorem Segment.collects_embeddings : Collects embeddingsOfAll SourceCell.embeddings :=
  ⟨rfl, fun _ _ _ => rfl, fun _ _ _ _ => rfl, fun _ => rfl⟩

theorem EmbeddedExpr.embeddings_ofCells (kind : FragmentKind) (cells : List SourceCell) :
    (ofCells cells).embeddings kind =
      ⟨kind, ofCells cells⟩ :: cells.flatMap SourceCell.embeddings := by
  rw [← Segment.collects_embeddings.segments_ofCells cells]
  cases ofCells cells
  rfl

/-- What is written in cells, and where gaps are, is the same in the source they make up. -/
theorem Segment.own?_ofCells (run : List Char) (cells : List SourceCell) :
    ((ofCells run cells).flatMap Segment.cells).map Cell.own? =
      run.map some ++ cells.map Cell.own? := by
  have hrun : ∀ run : List Char, ((ofRun run).flatMap Segment.cells).map Cell.own? = run.map some := by
    intro run
    rw [ofRun]
    split
    · next h => rw [h]; rfl
    · rw [List.flatMap_singleton, Segment.cells, own?_map_own]
  induction cells generalizing run with
  | nil => rw [ofCells, hrun, List.map_nil, List.append_nil]
  | cons cell rest ih =>
    cases cell with
    | own c =>
      rw [ofCells, ih, List.map_append, List.append_assoc]
      rfl
    | gap filler =>
      obtain ⟨text, e⟩ := filler
      rw [ofCells, List.flatMap_append, List.map_append, hrun, List.flatMap_cons, List.map_append, ih]
      rfl

theorem EmbeddedExpr.own?_ofCells (cells : List SourceCell) :
    (ofCells cells).cells.map Cell.own? = cells.map Cell.own? := by
  have hcells := Segment.own?_ofCells [] cells
  rw [ofCells]
  cases hsegments : Segment.ofCells [] cells with
  | nil =>
    rw [hsegments] at hcells
    exact hcells
  | cons first rest =>
    rw [hsegments] at hcells
    exact hcells

theorem EmbeddedExpr.own?_unplaced (source : EmbeddedExpr) :
    source.unplaced.cells.map Cell.own? = source.cells.map Cell.own? := by
  obtain ⟨span, segments⟩ := source
  change ((Segment.unplacedAll segments).flatMap Segment.cells).map Cell.own? =
    (segments.flatMap Segment.cells).map Cell.own?
  induction segments with
  | nil => rfl
  | cons segment rest ih =>
    obtain ⟨text, place, _ | e⟩ := segment
    all_goals
      rw [Segment.unplacedAll, List.flatMap_cons, List.flatMap_cons, List.map_append, List.map_append,
        ih]
      rfl

/-! ## Braces around cells -/

section Braced

variable {α : Type} {cells : List (Cell Char α)}

/-- One pair of braces stands around all cells. -/
def Braced (cells : List (Cell Char α)) : Prop :=
  ∃ inner, Balanced inner ∧ cells = .own '\x7b' :: inner ++ [.own '\x7d']

theorem Braced.of_own? {α' : Type} {cells' : List (Cell Char α')} (h : Braced cells)
    (hcells : cells'.map Cell.own? = cells.map Cell.own?) : Braced cells' := by
  obtain ⟨inner, hinner, rfl⟩ := h
  rw [List.map_append, List.map_cons] at hcells
  obtain ⟨front, back, rfl, hfront, hback⟩ := List.map_eq_append_iff.mp hcells
  obtain ⟨first, inner', rfl, hfirst, hinner'⟩ := List.map_eq_cons_iff.mp hfront
  obtain ⟨last, none, rfl, hlast, hnone⟩ := List.map_eq_cons_iff.mp hback
  obtain rfl := List.map_eq_nil_iff.mp hnone
  refine ⟨inner', hinner.of_own? hinner', ?_⟩
  cases first with
  | gap a => cases hfirst
  | own c =>
    cases last with
    | gap a => cases hlast
    | own d =>
      cases hfirst
      cases hlast
      rfl

/-- Dedenting takes no braces away. -/
theorem Braced.dedents {out : List (Cell Char α)} (h : Braced cells) {b b' : Bool}
    (hdedents : Dedents b cells out b') : Braced out := by
  obtain ⟨inner, hinner, rfl⟩ := h
  rw [List.cons_append] at hdedents
  obtain ⟨rest, rfl, hrest⟩ := hdedents.of_cons rfl
  obtain ⟨inner', last, mid, rfl, hinner', hlast⟩ := hrest.of_append
  obtain ⟨none, rfl, hnone⟩ := hlast.of_cons rfl
  obtain ⟨rfl, -⟩ := hnone.of_nil
  exact ⟨inner', hinner.dedents hinner', rfl⟩

end Braced

/-! ## Nodes that hold expressions -/

/-- The kind of fragment that an expression held by a node with a rule becomes. -/
def Rule.fragmentKind : Rule → FragmentKind
  | .exprListValue | .contentExprList => .list
  | _ => .scalar

/-- The node of an expression, with the rule of the node that holds it. -/
structure Holder where
  rule : Rule
  node : Node

namespace Node

variable {rule : Rule} {span : Span} {children : List Node}

mutual

/-- What holds the expressions of a tree, at any depth, in the order of their nodes. -/
def holders (node : Node) : List Holder :=
  match node with
  | ⟨rule, span, children⟩ => (embeds ⟨rule, span, children⟩).map (⟨rule, ·⟩) ++ holdersInAll children

/-- What holds the expressions of trees. -/
def holdersInAll (nodes : List Node) : List Holder :=
  match nodes with
  | [] => []
  | node :: rest => node.holders ++ holdersInAll rest

end

mutual

theorem map_node_holders (node : Node) : node.holders.map Holder.node = node.embedded :=
  match node with
  | ⟨rule, span, children⟩ => by
    rw [holders, embedded, List.map_append, List.map_map, map_node_holdersInAll children]
    exact congrArg (· ++ _) (List.map_id _)

theorem map_node_holdersInAll (nodes : List Node) :
    (holdersInAll nodes).map Holder.node = embeddedInAll nodes :=
  match nodes with
  | [] => rfl
  | node :: rest => by
    rw [holdersInAll, embeddedInAll, List.map_append, map_node_holders node,
      map_node_holdersInAll rest]

end

theorem holders_of_embeds (h : embeds ⟨rule, span, children⟩ = []) :
    holders ⟨rule, span, children⟩ = holdersInAll children := by
  rw [holders, h]
  rfl

theorem holdersInAll_singleton (node : Node) : holdersInAll [node] = node.holders := by
  rw [holdersInAll, holdersInAll, List.append_nil]

theorem holders_exprOver {nodes : List Node} : (exprOver o t nodes).holders = holdersInAll nodes :=
  holders_of_embeds rfl

theorem holders_leafOver (h : embeds (.leafOver rule o t) = []) :
    (leafOver rule o t).holders = [] :=
  holders_of_embeds h

theorem holders_group {opening closing : Char} (h : (rule, opening, closing) ∈ groups) :
    holders ⟨rule, span, children⟩ = holdersInAll children := by
  refine holders_of_embeds ?_
  simp only [groups, List.mem_cons, Prod.mk.injEq, List.not_mem_nil, or_false] at h
  rcases h with ⟨rfl, -⟩ | ⟨rfl, -⟩ | ⟨rfl, -⟩ <;> rfl

end Node

/-- An expression is one that a node with the rule holds. -/
structure Holder.Fits (holder : Holder) (embedding : Embedding) : Prop where
  kind : embedding.kind = holder.rule.fragmentKind
  braced : holder.rule = .dictShorthand → Braced embedding.source.cells

theorem Holder.Fits.of_unplaced {holder : Holder} {embedding : Embedding}
    (h : holder.Fits embedding.unplaced) : holder.Fits embedding where
  kind := h.kind
  braced hrule := (h.braced hrule).of_own? (EmbeddedExpr.own?_unplaced _).symm

/-- What a part of a template says about the cells of expressions in it. -/
def Sense.Balances : Sense → List Char → List Char → Prop
  | .pieces _ _ cells, t, _ => Balanced cells ∧ ∀ c, cells.head? = some (.own c) → t.head? = some c
  | .piece _ _ cells, t, rest => cells ≠ [] ∧ (∀ c, cells.head? = some (.own c) → t.head? = some c) ∧
      ∀ more, (∀ c, more.head? = some (.own c) → rest.head? = some c) → Balanced more →
        Balanced (cells ++ more)
  | _, _, _ => True

theorem Recognizes.balances (h : Recognizes sense o t rest) : sense.Balances t rest := by
  induction h with
  | noPieces _ =>
    refine ⟨.nil, fun c hc => ?_⟩
    cases hc
  | @pieces o stopAtColon t node cells u nodes more rest _ _ ih₁ ih₂ =>
    obtain ⟨hne, hhead, happend⟩ := ih₁
    obtain ⟨hmore, hnext⟩ := ih₂
    obtain ⟨cell, cells, rfl⟩ := List.exists_cons_of_ne_nil hne
    refine ⟨happend more (fun c hc => ?_) hmore, fun c hc => ?_⟩
    · rw [List.head?_append, hnext c hc]
      rfl
    · rw [List.head?_append, hhead c hc]
      rfl
  | @string o stopAtColon t rest ht hends =>
    obtain ⟨quote, body, rfl, -⟩ := ht.head
    refine ⟨List.cons_ne_nil _ _, ?_, fun more hnext hmore => .string ht ?_ hmore⟩
    · intro c hc
      cases hc
      rfl
    · intro other hother htwo hhead
      exact hends other hother htwo (hnext other hhead)
  | @plain o stopAtColon t rest hne ht _ =>
    obtain ⟨first, body, rfl⟩ := List.exists_cons_of_ne_nil hne
    refine ⟨List.cons_ne_nil _ _, ?_, fun more _ hmore => .plainText (fun c hc => ?_) hmore⟩
    · intro c hc
      cases hc
      rfl
    · have hplain := ht c hc
      rw [isPlainChar, Bool.and_eq_true, Bool.not_eq_true'] at hplain
      exact hplain.1
  | @group o stopAtColon rule opening closing t nodes cells rest hgroup _ _ _ ih =>
    refine ⟨List.cons_ne_nil _ _, ?_, fun more _ hmore => ?_⟩
    · intro c hc
      cases hc
      rfl
    · have hassoc : (.own opening :: cells ++ [.own closing]) ++ more =
          .own opening :: cells ++ .own closing :: more := by simp
      rw [hassoc]
      exact .group hgroup ih.1 hmore
  | nested _ _ _ _ _ =>
    refine ⟨List.cons_ne_nil _ _, fun c hc => ?_, fun _ _ hmore => .gap hmore⟩
    cases hc
  | _ => trivial

/-- The expressions of a part are those that its nodes hold. -/
def Sense.Fits : Sense → Prop
  | .element node e => List.Forall₂ Holder.Fits node.holders e.embeddings
  | .attributes nodes as =>
    List.Forall₂ Holder.Fits (Node.holdersInAll nodes) (Attribute.embeddingsOfAll as)
  | .value node v => List.Forall₂ Holder.Fits node.holders v.embeddings
  | .items nodes contents =>
    List.Forall₂ Holder.Fits (Node.holdersInAll nodes) (ContentItem.embeddingsOfAll contents)
  | .item node i => List.Forall₂ Holder.Fits node.holders i.embeddings
  | .pieces _ nodes cells =>
    List.Forall₂ Holder.Fits (Node.holdersInAll nodes) (cells.flatMap SourceCell.embeddings)
  | .piece _ node cells =>
    List.Forall₂ Holder.Fits node.holders (cells.flatMap SourceCell.embeddings)
  | .noNested | .noDict => True

/-- An expression between brackets or braces, with the expressions of the elements nested in it. -/
theorem fits_holder {rule : Rule} {span : Span} {nodes : List Node} {cells : List SourceCell}
    {kind : FragmentKind}
    (hrule : rule ∈ [.exprValue, .exprListValue, .contentExpr, .contentExprList])
    (hkind : kind = rule.fragmentKind)
    (h : List.Forall₂ Holder.Fits (Node.holdersInAll nodes) (cells.flatMap SourceCell.embeddings)) :
    List.Forall₂ Holder.Fits (Node.holders ⟨rule, span, [.exprOver o t nodes]⟩)
      ((EmbeddedExpr.ofCells cells).embeddings kind) := by
  have hholders : Node.holders ⟨rule, span, [.exprOver o t nodes]⟩ =
      ⟨rule, .exprOver o t nodes⟩ :: Node.holdersInAll nodes := by
    rw [Node.holders, Node.holdersInAll_singleton, Node.holders_exprOver]
    simp only [List.mem_cons, List.not_mem_nil, or_false] at hrule
    rcases hrule with rfl | rfl | rfl | rfl <;> rfl
  rw [hholders, EmbeddedExpr.embeddings_ofCells]
  refine .cons ⟨hkind, fun hdict => ?_⟩ h
  obtain rfl : rule = .dictShorthand := hdict
  simp at hrule

theorem braced_dict {keyCells valueCells : List SourceCell} (hkey : Balanced keyCells)
    (hvalue : Balanced valueCells) :
    Braced (.own '\x7b' :: keyCells ++ .own ':' :: valueCells ++ [.own '\x7d']) := by
  refine ⟨keyCells ++ .own ':' :: valueCells, hkey.append (.plain rfl hvalue) ?_, by simp⟩
  intro quote hquote hhead
  cases hhead
  simp [stringQuotes] at hquote

theorem Recognizes.fits (h : Recognizes sense o t rest) : sense.Fits := by
  induction h with
  | selfClosing _ _ _ _ _ _ ih =>
    rw [Sense.Fits, Node.holders_of_embeds rfl, Node.holdersInAll, Node.holders_leafOver rfl,
      Element.embeddings, ContentItem.embeddingsOfOptional, List.append_nil]
    exact ih
  | normal _ _ _ _ _ _ _ _ _ _ _ _ ih₁ ih₂ =>
    -- only the attributes of the open tag and the content hold expressions
    rw [Sense.Fits, Node.holders_of_embeds rfl, Node.holdersInAll, Node.holdersInAll,
      Node.holdersInAll_singleton, Node.holders_of_embeds rfl, Node.holders_of_embeds rfl,
      Node.holders_of_embeds rfl, Node.holdersInAll_singleton, Node.holders_leafOver rfl,
      List.append_nil, Node.holdersInAll, Node.holders_leafOver rfl, Element.embeddings,
      ContentItem.embeddingsOfOptional, embeddingsOfAll_trimContent]
    exact List.rel_append ih₁ ih₂
  | noAttributes _ => exact .nil
  | moreAttributes _ _ _ _ _ _ _ ih₁ ih₂ =>
    rw [Sense.Fits, Node.holdersInAll, Node.holders_of_embeds rfl, Node.holdersInAll,
      Node.holders_leafOver rfl, Node.holdersInAll_singleton, Attribute.embeddingsOfAll]
    exact List.rel_append ih₁ ih₂
  | quoted _ _ => exact .nil
  | @dict o key keys keyCells value values valueCells rest hkey hvalue ih₁ ih₂ =>
    have hbraced := braced_dict hkey.balances.1 hvalue.balances.1
    have hcells : (Cell.own '\x7b' :: keyCells ++ Cell.own ':' :: valueCells ++
        [Cell.own '\x7d']).flatMap SourceCell.embeddings =
        keyCells.flatMap SourceCell.embeddings ++ valueCells.flatMap SourceCell.embeddings := by
      simp [SourceCell.embeddings]
    rw [Sense.Fits, AttributeValue.embeddings, EmbeddedExpr.embeddings_ofCells, hcells, Node.holders,
      Node.holdersInAll, Node.holdersInAll_singleton, Node.holders_exprOver, Node.holders_exprOver]
    refine .cons ⟨rfl, fun _ => ?_⟩ (List.rel_append ih₁ ih₂)
    exact hbraced.of_own? (EmbeddedExpr.own?_ofCells _)
  | braces _ _ _ ih | brackets _ ih | braceItem _ ih | bracketItem _ ih =>
    exact fits_holder (by simp) rfl ih
  | items _ _ ih₁ ih₂ => exact List.rel_append ih₁ ih₂
  | elementItem _ ih => exact ih
  | noItems _ | text _ _ _ | noPieces _ => exact .nil
  | pieces _ _ ih₁ ih₂ =>
    rw [Sense.Fits, Node.holdersInAll, List.flatMap_append]
    exact List.rel_append ih₁ ih₂
  | string _ _ | plain _ _ _ =>
    rw [Sense.Fits, Node.holders_leafOver rfl, Segment.collects_embeddings.flatMap_own]
    exact .nil
  | group hgroup _ _ _ ih =>
    rw [Sense.Fits, Node.holders_group hgroup, Node.holdersInAll_singleton, Node.holders_exprOver,
      Segment.collects_embeddings.flatMap_enclosed]
    exact ih
  | nested _ _ _ _ ih =>
    rw [Sense.Fits, Node.holders_of_embeds rfl, Node.holdersInAll_singleton, List.flatMap_singleton]
    exact ih
  | _ => trivial

end ComponentMarkup
