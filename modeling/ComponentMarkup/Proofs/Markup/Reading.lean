import ComponentMarkup.Proofs.Markup.Steps

/-!
# What is read

One walk along the readers of markup says what each of them does, with or without remembering elements:
`Reader.readsAt`. Between two characters at most seven calls are nested, so `8 * n` and a little more
covers `n` characters. In particular the bound of `Node.parse` is never reached.
-/

namespace ComponentMarkup

open Text (byteLength isBlank)

variable {template : List Char}

namespace Reader

/-! ## Elements, contents and expressions -/

/-- A node is found between two places, or there is none and nothing is passed over. -/
def FoundOr {σ : Type} (sense : Node → σ → Sense) (none : Sense) (c : Cursor) :
    Option Node → Cursor → Prop
  | some node, c' => Found (sense node) c c'
  | .none, c' => c' = c ∧ Recognizes none c.offset [] c.rest

/-- An expression is found between two places. -/
def FoundExpr (stopAtColon : Bool) (c : Cursor) (e : Node) (c' : Cursor) : Prop :=
  ∃ t nodes cells, c.Passes t c' ∧ e = .exprOver c.offset t nodes ∧
    Recognizes (.pieces stopAtColon nodes cells) c.offset t c'.rest

/-- An expression between brackets is found between two places. -/
def FoundInside (opening closing : Char) (c : Cursor) (e : Node) (c' : Cursor) : Prop :=
  ∃ t nodes cells, c.Passes (opening :: t ++ [closing]) c' ∧ e = .exprOver (c.offset + 1) t nodes ∧
    Recognizes (.pieces false nodes cells) (c.offset + 1) t ([closing] ++ c'.rest)

/-- The content of an element is found between two places. -/
def FoundContent (c : Cursor) (node : Node) (c' : Cursor) : Prop :=
  ∃ body nodes items, c.Passes body c' ∧ node = ⟨.content, .over c.offset body, nodes⟩ ∧
    Recognizes (.items nodes items) c.offset body c'.rest

/-- The element at a place, which is passed over whether it was remembered or not. -/
def elementOver (depth : Nat) (place : Cursor) : Reader (Node × Cursor) := do
  let result ← elementAt depth place
  moveTo result.2
  return result

/-- What a reader does under two bounds on the depth, which cover the text ahead if both leave a number
of calls beyond it. -/
abbrev Descends {α : Type} (template : List Char) (depth depth' calls : Nat) (c : Cursor)
    (P : α → Cursor → Prop) (p : Nat → Reader α) : Prop :=
  Reads template (8 * c.rest.length + calls ≤ min depth depth') c P (p depth) (p depth')

/-- What all readers do under two bounds on the depth. -/
structure ReadsAt (template : List Char) (depth depth' : Nat) : Prop where
  element {c} : c.IsIn template →
    Descends template depth depth' 1 c (fun node => Found (.element node) c) element
  attributes {c} : c.IsIn template →
    Descends template depth depth' 1 c (fun nodes => Found (.attributes nodes) c) attributes
  attributeValue {c} : c.IsIn template →
    Descends template depth depth' 2 c (fun node => Found (.value node) c) attributeValue
  dictShorthand {c} : c.IsIn template → c.peek? = some '\x7b' →
    Descends template depth depth' 1 c (FoundOr .value .noDict c) dictShorthand
  delimited {c opening closing} : c.IsIn template → opening.utf8Size = 1 → c.peek? = some opening →
    Descends template depth depth' 1 c (FoundInside opening closing c) (delimited · opening closing)
  content {c} : c.IsIn template → Descends template depth depth' 4 c (FoundContent c) content
  contentItems {c} : c.IsIn template →
    Descends template depth depth' 3 c (fun nodes => Found (.items nodes) c) contentItems
  contentItem {c} : c.IsIn template → c.rest ≠ [] →
    Descends template depth depth' 2 c (fun node => Found (.item node) c) contentItem
  expression {c stopAtColon} : c.IsIn template →
    Descends template depth depth' 5 c (FoundExpr stopAtColon c) (expression · stopAtColon)
  pieces {c stopAtColon} : c.IsIn template →
    Descends template depth depth' 4 c (fun nodes => Found (.pieces stopAtColon nodes) c)
      (pieces · stopAtColon)
  piece {c stopAtColon x} : c.IsIn template → c.peek? = some x → endsPieces stopAtColon x = false →
    Descends template depth depth' 3 c (fun node => Found (.piece stopAtColon node) c)
      (piece · stopAtColon)
  group {c stopAtColon rule opening closing} : c.IsIn template → (rule, opening, closing) ∈ groups →
    c.peek? = some opening → (opening = '(' → Recognizes .noNested c.offset [] c.rest) →
    Descends template depth depth' 2 c (fun node => Found (.piece stopAtColon node) c)
      (group · rule opening closing)
  nestedElement {c stopAtColon} : c.IsIn template → c.peek? = some '(' →
    Descends template depth depth' 1 c (FoundOr (.piece stopAtColon) .noNested c) nestedElement
  elementOver {c} : c.IsIn template →
    Descends template depth depth' 2 c
      (fun attempt c' => attempt.2 = c' ∧ Found (.element attempt.1) c c') (elementOver · c)

section Descent

variable {template : List Char} {depth depth' : Nat} {c : Cursor} {stopAtColon : Bool}

theorem readsAt_tooDeep : ReadsAt template depth 0 := by
  constructor <;> intros <;> refine ⟨.error (Cursor.IsIn.fits_here (by assumption)), ?_⟩ <;> omega

section Step

variable (ih : ReadsAt template depth depth') (hc : c.IsIn template) {opening closing : Char}

include ih hc

theorem reads_element :
    Descends template (depth + 1) (depth' + 1) 1 c (fun node => Found (.element node) c) element := by
  unfold Descends element
  refine reads_offset_bind (reads_expect_bind hc fun c₁ hopen => reads_skipBlanks_bind ?_)
  obtain ⟨w, hw, hblanks⟩ := c₁.passes_skipBlanks
  have hplace : c.Passes ('<' :: w) c₁.skipBlanks := hopen.trans hblanks
  refine (reads_tagName (hc.passes hplace)).bind id ?_
  rintro _ c₂ ⟨name, htag, hname, hhalts, rfl⟩
  have hfront : c.Passes ('<' :: w ++ name) c₂ := hplace.trans htag
  -- the bracket is passed, so fewer characters are ahead and the depths suffice for the parts
  have hlt := hfront.lt (List.cons_ne_nil _ _)
  refine (ih.attributes (hc.passes hfront)).bind (fun _ => by omega) ?_
  rintro attrs c₃ ⟨as, t, hpass, has⟩
  refine reads_skipBlanks_bind ?_
  obtain ⟨w', hw', hblanks'⟩ := c₃.passes_skipBlanks
  have htags := (hfront.trans hpass).trans hblanks'
  rw [hpass.rest] at hhalts
  rw [hfront.offset] at has
  refine reads_if_consume (fun c₄ hend => reads_nodeFrom ?_) fun _ => ?_
  · have hwhole := htags.trans hend
    rw [hwhole.span, hplace.offset]
    refine ⟨⟨String.ofList name, as, none, .empty 0⟩, _, hwhole,
      .selfClosing hw hname hhalts.of_append ?_ hw' rfl⟩
    rw [hblanks'.rest, hend.rest, ← List.append_assoc] at has
    exact has
  · refine reads_expect_bind (hc.passes htags) fun c₄ hend => ?_
    refine reads_nodeFrom_bind (reads_skipBlanks_bind ?_)
    have hopening := htags.trans hend
    obtain ⟨v, hv, hblanks''⟩ := c₄.passes_skipBlanks
    have hfront' := hopening.trans hblanks''
    have hlt' := hfront'.lt (List.cons_ne_nil _ _)
    refine (ih.content (hc.passes hfront')).bind (fun _ => by omega) ?_
    rintro _ c₅ ⟨body, items, contents, hbody, rfl, hcontents⟩
    have hinner := hfront'.trans hbody
    -- items leave no blanks before a close tag
    have hskip : c₅.skipBlanks = c₅ := by
      refine Cursor.skipBlanks_of_halts ?_
      obtain hnil | ⟨more, hmore⟩ := hcontents.items_end
      · rw [hnil]
        exact halts_nil
      · rw [← hmore]
        exact halts_cons.mpr (by decide)
    refine (reads_closeTag (hc.passes hinner) hskip
      (hc.fits hopening ⟨w, t ++ w', hw, ?_⟩)).bind id ?_
    · simp
    rintro _ c₆ ⟨u, u', closing, hu, hu', hclosing, hclose, rfl⟩
    have hwhole := hinner.trans hclose
    refine reads_nodeFrom ?_
    rw [hwhole.span, hopening.span, hinner.offset, hplace.offset, hfront'.offset]
    refine ⟨⟨String.ofList name, as, some (Reduction.trimContent contents), .empty 0⟩, _, hwhole, ?_⟩
    rw [Nat.add_assoc _ _ (byteLength _), ← Text.byteLength_append]
    refine .normal hw hname hhalts.of_append ?_ hw' rfl hv ?_ ?_ hu hu' hclosing
    · rw [hblanks'.rest, hend.rest, hblanks''.rest, hbody.rest, hclose.rest] at has
      simpa using has
    · have hstop := c₄.halts_skipBlanks
      rw [hbody.rest] at hstop
      exact hstop.of_append
    · rw [hfront'.offset, hclose.rest] at hcontents
      exact hcontents

theorem reads_attributes :
    Descends template (depth + 1) (depth' + 1) 1 c (fun nodes => Found (.attributes nodes) c)
      attributes := by
  unfold Descends attributes
  refine reads_cursor_bind (reads_skipBlanks_bind (reads_cursor_bind ?_))
  obtain ⟨w, hw, hblanks⟩ := c.passes_skipBlanks
  cases hname : c.skipBlanks.readName? with
  | none =>
    refine reads_moveTo_bind (reads_pure ⟨[], [], .refl c, .noAttributes ?_⟩)
    exact Cursor.readName?_eq_none_iff.mp hname
  | some found =>
    obtain ⟨name, c₁⟩ := found
    obtain ⟨hname, htag⟩ := Cursor.passes_readName? hname
    refine reads_moveTo_bind (reads_leafFrom_bind (reads_skipBlanks_bind ?_))
    obtain ⟨u, hu, hblanks₁⟩ := c₁.passes_skipBlanks
    have hfront := htag.trans hblanks₁
    refine reads_expect_bind (hc.passes (hblanks.trans hfront)) fun c₂ hequals => ?_
    refine reads_skipBlanks_bind ?_
    obtain ⟨u', hu', hblanks₂⟩ := c₂.passes_skipBlanks
    have hbefore := hblanks.trans ((hfront.trans hequals).trans hblanks₂)
    have hlt := hbefore.lt (by simp)
    refine (ih.attributeValue (hc.passes hbefore)).bind (fun _ => by omega) ?_
    rintro node c₃ ⟨value, t, hval, hvalue⟩
    have hattr : c.skipBlanks.Passes (name ++ u ++ '=' :: u' ++ t) c₃ := by
      simpa using ((hfront.trans hequals).trans hblanks₂).trans hval
    have hle := hval.le
    refine reads_nodeFrom_bind ((ih.attributes (hc.passes (hblanks.trans hattr))).bind
      (fun _ => by omega) ?_)
    rintro attrs c₄ ⟨as, more, hmore, has⟩
    refine reads_pure ⟨⟨String.ofList name, value, .empty 0⟩ :: as, _,
      (hblanks.trans hattr).trans hmore, ?_⟩
    rw [hattr.span, htag.span, hblanks.offset]
    refine .moreAttributes hw hname hu hu' ?_ rfl ?_
    · rw [hbefore.offset, hmore.rest] at hvalue
      simpa using hvalue
    · rw [(hblanks.trans hattr).offset] at has
      exact has

theorem reads_delimited (hsize : opening.utf8Size = 1) (hpeek : c.peek? = some opening) :
    Descends template (depth + 1) (depth' + 1) 1 c (FoundInside opening closing c)
      (delimited · opening closing) := by
  unfold Descends delimited
  refine reads_offset_bind (reads_advance_bind ?_)
  have hopen := Cursor.passes_advance hpeek
  have hlt := hopen.lt (List.cons_ne_nil _ _)
  have hplace : c.advance.offset = c.offset + 1 := by
    rw [hopen.offset, Text.byteLength_cons, hsize]
    rfl
  refine (ih.expression (hc.passes hopen)).bind (fun _ => by omega) ?_
  rintro _ c₁ ⟨t, nodes, cells, hinner, rfl, hcells⟩
  rw [hplace] at hcells ⊢
  refine reads_if_consume (fun c₂ hclose => reads_pure ?_) fun _ => reads_fail ?_
  · rw [hclose.rest] at hcells
    exact ⟨t, nodes, cells, (hopen.trans hinner).trans hclose, rfl, hcells⟩
  · have hfits : MarkupError.Fits template ⟨.unclosedDelimiter opening, c.offset, c.advance.offset⟩ :=
      hc.fits hopen rfl
    rw [hplace] at hfits
    exact hfits

theorem reads_dictShorthand (hpeek : c.peek? = some '\x7b') :
    Descends template (depth + 1) (depth' + 1) 1 c (FoundOr .value .noDict c) dictShorthand := by
  unfold Descends dictShorthand
  refine reads_cursor_bind (reads_advance_bind ?_)
  have hopen := Cursor.passes_advance hpeek
  have hlt := hopen.lt (List.cons_ne_nil _ _)
  have hplace : c.advance.offset = c.offset + 1 := hopen.offset
  refine (ih.expression (hc.passes hopen)).bind (fun _ => by omega) ?_
  rintro _ c₁ ⟨key, keys, keyCells, hkey, rfl, hkeyCells⟩
  have hfront := hopen.trans hkey
  rw [hplace] at hkeyCells ⊢
  refine reads_if_consume (fun c₂ hcolon => ?_) fun hcolon => ?_
  · have hbefore : c.Passes ('\x7b' :: key ++ [':']) c₂ := hfront.trans hcolon
    have hlt' := hbefore.lt (List.cons_ne_nil _ _)
    refine (ih.expression (hc.passes hbefore)).bind (fun _ => by omega) ?_
    rintro _ c₃ ⟨value, values, valueCells, hvalue, rfl, hvalueCells⟩
    rw [hbefore.offset] at hvalueCells ⊢
    rw [hcolon.rest, hvalue.rest] at hkeyCells
    refine reads_if_consume (fun c₄ hclose => reads_nodeFrom_bind (reads_pure ?_)) fun hclose => ?_
    · have hwhole : c.Passes ('\x7b' :: key ++ ':' :: value ++ ['\x7d']) c₄ := by
        simpa using (hbefore.trans hvalue).trans hclose
      rw [hclose.rest] at hkeyCells hvalueCells
      rw [hwhole.span]
      have hkeys : Recognizes (.pieces true keys keyCells) (c.offset + 1) key
          (':' :: value ++ ['\x7d'] ++ c₄.rest) := by simpa using hkeyCells
      exact ⟨_, _, hwhole, .dict hkeys hvalueCells⟩
    · refine reads_moveTo_bind (reads_pure ⟨rfl, ?_⟩)
      rw [(hbefore.trans hvalue).rest]
      have hkeys : Recognizes (.pieces true keys keyCells) (c.offset + 1) key
          (':' :: value ++ c₃.rest) := hkeyCells
      simpa using Recognizes.noBrace hkeys hvalueCells hclose
  · refine reads_moveTo_bind (reads_pure ⟨rfl, ?_⟩)
    rw [hfront.rest]
    exact .noColon hkeyCells hcolon

theorem reads_attributeValue :
    Descends template (depth + 1) (depth' + 1) 2 c (fun node => Found (.value node) c)
      attributeValue := by
  unfold Descends attributeValue
  refine reads_cursor_bind ?_
  split
  · next hpeek => exact reads_quotedLiteral hc (by decide) hpeek
  · next hpeek => exact reads_quotedLiteral hc (by decide) hpeek
  · next hpeek =>
    refine (ih.dictShorthand hc hpeek).bind (fun _ => by omega) ?_
    rintro (_ | dict) c₁ hfound
    · -- nothing was passed over, so the expression is read from the same place
      obtain ⟨rfl, hnone⟩ := hfound
      refine (ih.delimited hc rfl hpeek).bind (fun _ => by omega) ?_
      rintro _ c₂ ⟨t, nodes, cells, hpass, rfl, hcells⟩
      refine reads_nodeFrom ?_
      rw [hpass.rest] at hnone
      rw [hpass.span]
      exact ⟨_, _, hpass, .braces hnone hcells⟩
    · exact reads_pure hfound
  · next hpeek =>
    refine (ih.delimited hc rfl hpeek).bind (fun _ => by omega) ?_
    rintro _ c₁ ⟨t, nodes, cells, hpass, rfl, hcells⟩
    refine reads_nodeFrom ?_
    rw [hpass.span]
    exact ⟨_, _, hpass, .brackets hcells⟩
  · exact reads_expected hc

theorem reads_content :
    Descends template (depth + 1) (depth' + 1) 4 c (FoundContent c) content := by
  unfold Descends content
  refine reads_offset_bind ((ih.contentItems hc).bind (fun _ => by omega) ?_)
  rintro nodes c₁ ⟨items, body, hpass, hitems⟩
  refine reads_nodeFrom ⟨body, nodes, items, hpass, ?_, hitems⟩
  rw [hpass.span]

theorem reads_contentItems :
    Descends template (depth + 1) (depth' + 1) 3 c (fun nodes => Found (.items nodes) c)
      contentItems := by
  unfold Descends contentItems
  refine reads_cursor_bind ?_
  have hends : (c.atEnd || c.startsWith ['<', '/']) = true ↔ c.rest = [] ∨ ['<', '/'] <+: c.rest := by
    simp [Cursor.atEnd, Cursor.startsWith]
  split
  · next hend => exact reads_pure ⟨[], [], .refl c, .noItems (hends.mp hend)⟩
  · next hgo =>
    rw [hends, not_or] at hgo
    refine (ih.contentItem hc hgo.1).bind (fun _ => by omega) ?_
    rintro node c₁ ⟨item, t, hpass, hitem⟩
    have hlt := hpass.lt hitem.item_start.1
    refine (ih.contentItems (hc.passes hpass)).bind (fun _ => by omega) ?_
    rintro nodes c₂ ⟨items, u, hpass', hitems⟩
    rw [hpass'.rest] at hitem
    rw [hpass.offset] at hitems
    exact reads_pure ⟨_, _, hpass.trans hpass', .items hitem hitems⟩

theorem reads_contentItem (hne : c.rest ≠ []) :
    Descends template (depth + 1) (depth' + 1) 2 c (fun node => Found (.item node) c)
      contentItem := by
  unfold Descends contentItem
  refine reads_cursor_bind ?_
  split
  · refine (ih.element hc).imp (fun _ => by omega) ?_
    rintro node c₁ ⟨e, t, hpass, he⟩
    exact ⟨.element e, t, hpass, .elementItem he⟩
  · next hpeek =>
    refine (ih.delimited hc rfl hpeek).bind (fun _ => by omega) ?_
    rintro _ c₁ ⟨t, nodes, cells, hpass, rfl, hcells⟩
    refine reads_nodeFrom ?_
    rw [hpass.span]
    exact ⟨_, _, hpass, .braceItem hcells⟩
  · next hpeek =>
    refine (ih.delimited hc rfl hpeek).bind (fun _ => by omega) ?_
    rintro _ c₁ ⟨t, nodes, cells, hpass, rfl, hcells⟩
    refine reads_nodeFrom ?_
    rw [hpass.span]
    exact ⟨_, _, hpass, .bracketItem hcells⟩
  · next hangle hbrace hbracket =>
    obtain ⟨x, rest, hrest⟩ := List.exists_cons_of_ne_nil hne
    have hpeek : c.peek? = some x := by rw [Cursor.peek?, hrest]; rfl
    rw [hpeek] at hangle hbrace hbracket
    refine reads_contentText hpeek ?_
    simp_all [isContentMark]

theorem reads_expression :
    Descends template (depth + 1) (depth' + 1) 5 c (FoundExpr stopAtColon c)
      (expression · stopAtColon) := by
  unfold Descends expression
  refine reads_offset_bind ((ih.pieces hc).bind (fun _ => by omega) ?_)
  rintro nodes c₁ ⟨cells, t, hpass, hcells⟩
  refine reads_nodeFrom ⟨t, nodes, cells, hpass, ?_, hcells⟩
  rw [hpass.span]
  rfl

theorem reads_pieces :
    Descends template (depth + 1) (depth' + 1) 4 c (fun nodes => Found (.pieces stopAtColon nodes) c)
      (pieces · stopAtColon) := by
  unfold Descends pieces
  refine reads_cursor_bind ?_
  cases hpeek : c.peek? with
  | none =>
    refine reads_pure ⟨[], [], .refl c, .noPieces fun x hx => ?_⟩
    cases hx.symm.trans hpeek
  | some x =>
    dsimp only
    split
    · next hstop =>
      refine reads_pure ⟨[], [], .refl c, .noPieces fun y hy => ?_⟩
      cases hy.symm.trans hpeek
      exact hstop
    · next hgo =>
      refine (ih.piece hc hpeek (Bool.not_eq_true _ ▸ hgo)).bind (fun _ => by omega) ?_
      rintro node c₁ ⟨cells, t, hpass, hcells⟩
      have hne : t ≠ [] := by
        obtain ⟨y, hy, -⟩ := hcells.piece_start
        rintro rfl
        cases hy
      have hlt := hpass.lt hne
      refine (ih.pieces (hc.passes hpass)).bind (fun _ => by omega) ?_
      rintro nodes c₂ ⟨more, u, hpass', hmore⟩
      rw [hpass'.rest] at hcells
      rw [hpass.offset] at hmore
      exact reads_pure ⟨_, _, hpass.trans hpass', .pieces hcells hmore⟩

theorem reads_piece {x : Char} (hpeek : c.peek? = some x) (hx : endsPieces stopAtColon x = false) :
    Descends template (depth + 1) (depth' + 1) 3 c (fun node => Found (.piece stopAtColon node) c)
      (piece · stopAtColon) := by
  unfold Descends piece
  refine reads_cursor_bind ?_
  split
  · next hquote => exact reads_stringLiteral hc (by decide) hquote
  · next hquote => exact reads_stringLiteral hc (by decide) hquote
  · next hparen =>
    have hnested : Descends template depth depth' 1 c (FoundOr (.piece stopAtColon) .noNested c)
        nestedElement := ih.nestedElement hc hparen
    refine hnested.bind (fun _ => by omega) ?_
    rintro (_ | nested) c₁ hfound
    · -- nothing was passed over, so the brackets are read from the same place
      obtain ⟨rfl, hnone⟩ := hfound
      exact (ih.group hc (by decide) hparen fun _ => hnone).imp (fun _ => by omega) fun _ _ => id
    · exact reads_pure hfound
  · next hbrace =>
    refine (ih.group hc (by decide) hbrace fun hparen => ?_).imp (fun _ => by omega) fun _ _ => id
    exact absurd hparen (by decide)
  · next hbracket =>
    refine (ih.group hc (by decide) hbracket fun hparen => ?_).imp (fun _ => by omega) fun _ _ => id
    exact absurd hparen (by decide)
  · next hquote₁ hquote₂ hparen hbrace hbracket =>
    rw [hpeek] at hquote₁ hquote₂ hparen hbrace hbracket
    refine reads_plainText hpeek ?_
    cases stopAtColon <;> simp_all [isPlainChar, isMark, endsPieces]

theorem reads_group {rule : Rule} (hgroup : (rule, opening, closing) ∈ groups)
    (hpeek : c.peek? = some opening)
    (hnested : opening = '(' → Recognizes .noNested c.offset [] c.rest) :
    Descends template (depth + 1) (depth' + 1) 2 c (fun node => Found (.piece stopAtColon node) c)
      (group · rule opening closing) := by
  unfold Descends group
  refine reads_offset_bind ((ih.delimited hc (utf8Size_of_group hgroup) hpeek).bind
    (fun _ => by omega) ?_)
  rintro _ c₁ ⟨t, nodes, cells, hpass, rfl, hcells⟩
  refine reads_nodeFrom ?_
  rw [hpass.rest] at hnested
  rw [hpass.span]
  exact ⟨_, _, hpass, .group hgroup hnested hcells⟩

omit ih hc in
theorem nestedElement_eq (depth : Nat) :
    nestedElement (depth + 1) = (do
      let start ← cursor
      advance
      skipBlanks
      let place ← cursor
      if place.startsWith ['<'] then
        let attempt ← elementOver depth place
        skipBlanks
        if ← consume [')'] then
          return some (← nodeFrom .nestedElement start.offset [attempt.1])
        else
          moveTo start
          return none
      else
        moveTo start
        return none) := by
  simp only [nestedElement, elementOver, bind_assoc, pure_bind]

theorem reads_nestedElement (hpeek : c.peek? = some '(') :
    Descends template (depth + 1) (depth' + 1) 1 c (FoundOr (.piece stopAtColon) .noNested c)
      nestedElement := by
  rw [Descends, nestedElement_eq, nestedElement_eq]
  refine reads_cursor_bind (reads_advance_bind (reads_skipBlanks_bind (reads_cursor_bind ?_)))
  obtain ⟨w, hw, hblanks⟩ := c.advance.passes_skipBlanks
  have hfront : c.Passes ('(' :: w) c.advance.skipBlanks :=
    (Cursor.passes_advance hpeek).trans hblanks
  have hlt := hfront.lt (List.cons_ne_nil _ _)
  split
  · refine (ih.elementOver (hc.passes hfront)).bind (fun _ => by omega) ?_
    rintro ⟨node, c₁⟩ _ ⟨rfl, e, t, hpass, he⟩
    dsimp only at hpass he ⊢
    refine reads_skipBlanks_bind ?_
    obtain ⟨w', hw', hblanks'⟩ := c₁.passes_skipBlanks
    rw [hfront.offset, hblanks'.rest] at he
    have hbefore := (hfront.trans hpass).trans hblanks'
    refine reads_if_consume (fun c₂ hclose => reads_nodeFrom_bind (reads_pure ?_)) fun hclose => ?_
    · have hwhole := hbefore.trans hclose
      rw [hclose.rest, ← List.append_assoc] at he
      rw [hwhole.span]
      exact ⟨_, _, hwhole, .nested hw he hw' rfl⟩
    · refine reads_moveTo_bind (reads_pure ⟨rfl, ?_⟩)
      rw [hbefore.rest]
      exact .noParen hw he hw' (Cursor.halts_skipBlanks c₁) hclose
  · next hstart =>
    refine reads_moveTo_bind (reads_pure ⟨rfl, ?_⟩)
    rw [hfront.rest]
    exact .noElement hw (Cursor.halts_skipBlanks _)
      fun hpre => hstart (List.isPrefixOf_iff_prefix.mpr hpre)

end Step

theorem remembered?_bind {α : Type} (o : Nat) (f : Option Attempt → Reader α) (s : ReaderState) :
    (remembered? o >>= f) s = f (s.attempts.bind (List.lookup o)) s := rfl

section

variable {p : Reader Node} {s s' : ReaderState} {e : Node} {err : MarkupError}

theorem attempt_of_ok (h : p s = .ok (e, s')) : attempt p s = .ok (.ok (e, s'.cursor), s') := by
  change Except.tryCatch ((p >>= _) s) _ = _
  rw [bind_of_ok h]
  rfl

theorem attempt_of_error (h : p s = .error err) : attempt p s = .ok (.error err, s) := by
  change Except.tryCatch ((p >>= _) s) _ = _
  rw [bind_of_error h]
  rfl

end

theorem elementOver_run (attempts : Option (List (Nat × Attempt))) :
    elementOver (depth + 1) c ⟨c, attempts⟩ =
      match attempts.bind (List.lookup c.offset) with
      | some attempt => attempt.map fun r => (r, ⟨r.2, attempts⟩)
      | none =>
        match element depth ⟨c, attempts⟩ with
        | .ok (e, s) =>
          .ok ((e, s.cursor), ⟨s.cursor, s.attempts.map ((c.offset, .ok (e, s.cursor)) :: ·)⟩)
        | .error e => .error e := by
  unfold elementOver elementAt
  rw [bind_assoc, remembered?_bind]
  cases attempts.bind (List.lookup c.offset) with
  | some attempt => cases attempt <;> rfl
  | none =>
    simp only
    rw [bind_assoc]
    cases hread : element depth ⟨c, attempts⟩ with
    | ok r => exact bind_of_ok (attempt_of_ok hread)
    | error e => exact bind_of_ok (attempt_of_error hread)

theorem reads_elementOver (ih : ReadsAt template depth depth')
    (hall : 0 < depth → ∀ m, ReadsAt template depth m) (hc : c.IsIn template) :
    Descends template (depth + 1) (depth' + 1) 2 c
      (fun attempt c' => attempt.2 = c' ∧ Found (.element attempt.1) c c') (elementOver · c) := by
  refine ⟨?_, fun hcover attempts htrusted => ?_⟩
  · have hfine := (ih.element hc).fine
    simp only [elementOver_run, Option.bind_none]
    generalize element depth' ⟨c, none⟩ = r at hfine
    cases hfine with
    | ok hfound => exact .ok ⟨rfl, hfound⟩
    | error he => exact .error he
  · simp only [elementOver_run, Option.bind_none]
    cases hlookup : attempts.bind (List.lookup c.offset) with
    | some attempt =>
      -- the remembered place is the one reached: both are at the same offset of the template
      obtain ⟨place, hplace, hoffset, hread⟩ := htrusted _ _ hlookup
      obtain rfl : place = c := hplace.eq_of_offset hc hoffset
      simp only [hread depth' (by omega)]
      cases attempt with
      | ok r => exact .ok htrusted
      | error e => exact .error
    | none =>
      have hsame : ∀ m, 8 * c.rest.length + 1 ≤ m →
          SameOutcome template (element depth ⟨c, attempts⟩) (element m ⟨c, none⟩) := fun m hm =>
        ((hall (by omega) m).element hc).same (by omega) attempts htrusted
      cases hread : element depth ⟨c, attempts⟩ with
      | error e =>
        rw [hread] at hsame
        simp only [(hsame depth' (by omega)).eq_error]
        exact .error
      | ok r =>
        obtain ⟨e, s⟩ := r
        rw [hread] at hsame
        obtain ⟨hread', htrusted'⟩ := (hsame depth' (by omega)).eq_ok
        simp only [hread']
        exact .ok (htrusted'.remember hc fun m hm => (hsame m hm).eq_ok.1)

theorem readsAt_succ (ih : ReadsAt template depth depth')
    (hall : 0 < depth → ∀ m, ReadsAt template depth m) :
    ReadsAt template (depth + 1) (depth' + 1) where
  element := reads_element ih
  attributes := reads_attributes ih
  attributeValue := reads_attributeValue ih
  dictShorthand := reads_dictShorthand ih
  delimited hc := reads_delimited ih hc
  content := reads_content ih
  contentItems := reads_contentItems ih
  contentItem := reads_contentItem ih
  expression := reads_expression ih
  pieces := reads_pieces ih
  piece hc := reads_piece ih hc
  group hc := reads_group ih hc
  nestedElement := reads_nestedElement ih
  elementOver := reads_elementOver ih hall

/-- Under the bound zero no text is covered. -/
theorem ReadsAt.zero (h : ReadsAt template depth depth') : ReadsAt template 0 depth' where
  element hc := (h.element hc).uncovered (by omega)
  attributes hc := (h.attributes hc).uncovered (by omega)
  attributeValue hc := (h.attributeValue hc).uncovered (by omega)
  dictShorthand hc hpeek := (h.dictShorthand hc hpeek).uncovered (by omega)
  delimited hc hsize hpeek := (h.delimited hc hsize hpeek).uncovered (by omega)
  content hc := (h.content hc).uncovered (by omega)
  contentItems hc := (h.contentItems hc).uncovered (by omega)
  contentItem hc hne := (h.contentItem hc hne).uncovered (by omega)
  expression hc := (h.expression hc).uncovered (by omega)
  pieces hc := (h.pieces hc).uncovered (by omega)
  piece hc hpeek hx := (h.piece hc hpeek hx).uncovered (by omega)
  group hc hgroup hpeek hnested := (h.group hc hgroup hpeek hnested).uncovered (by omega)
  nestedElement hc hpeek := (h.nestedElement hc hpeek).uncovered (by omega)
  elementOver hc := (h.elementOver hc).uncovered (by omega)

/-- What all readers do, under any bounds. -/
theorem readsAt (template : List Char) (depth depth' : Nat) : ReadsAt template depth depth' := by
  induction depth generalizing depth' with
  | zero =>
    -- here only reading afresh matters, which does not remember anything
    induction depth' with
    | zero => exact readsAt_tooDeep
    | succ depth' ih => exact (readsAt_succ ih fun h => absurd h (Nat.lt_irrefl 0)).zero
  | succ depth ih =>
    cases depth' with
    | zero => exact readsAt_tooDeep
    | succ depth' => exact readsAt_succ (ih depth') fun _ => ih

end Descent

theorem reads_document (template : List Char) (depth depth' : Nat) :
    Reads template (8 * template.length + 1 ≤ min depth depth') (.ofText template)
      (fun tree _ => ∃ v t v' node e, template = v ++ t ++ v' ∧ Blanks v ∧ Blanks v' ∧
        tree = ⟨.document, .over 0 template, [node]⟩ ∧
        Recognizes (.element node e) (byteLength v) t v')
      (document depth) (document depth') := by
  have hstart : (Cursor.ofText template).IsIn template := ⟨[], rfl, rfl⟩
  unfold document
  refine reads_cursor_bind (reads_skipBlanks_bind ?_)
  obtain ⟨v, hv, hblanks⟩ := (Cursor.ofText template).passes_skipBlanks
  have hle : (Cursor.ofText template).skipBlanks.rest.length ≤ template.length := hblanks.le
  refine ((readsAt template depth depth').element (hstart.passes hblanks)).bind
    (fun _ => by omega) ?_
  rintro node c₁ ⟨e, t, hpass, he⟩
  refine reads_skipBlanks_bind (reads_cursor_bind ?_)
  obtain ⟨v', hv', hblanks'⟩ := c₁.passes_skipBlanks
  split
  · next hend =>
    have hrest : c₁.rest = v' := by rw [hblanks'.rest, List.isEmpty_iff.mp hend, List.append_nil]
    have hwhole : template = v ++ t ++ v' := hrest ▸ (hblanks.trans hpass).rest
    have hplace : (Cursor.ofText template).skipBlanks.offset = byteLength v :=
      hblanks.offset.trans (Nat.zero_add _)
    rw [hplace, hrest] at he
    exact reads_pure ⟨v, t, v', node, e, hwhole, hv, hv', rfl, he⟩
  · next hmore =>
    -- the end of the template is the end of what is left of it
    have hfront := (hblanks.trans hpass).trans hblanks'
    have hfits : MarkupError.Fits template ⟨.trailingContent, _⟩ := (hstart.passes hfront).fits_rest
      ⟨rfl, fun hnil => hmore (List.isEmpty_iff.mpr hnil)⟩
    rw [hfront.stop] at hfits
    exact reads_fail hfits

end Reader

/-! ## Templates -/

/-- Reading a template, with all elements after parentheses read afresh. -/
theorem Node.parse_eq_run' {depth : Nat} (hdepth : 8 * template.length + 1 ≤ depth) :
    Node.parse template = (Reader.document depth).run' ⟨.ofText template, none⟩ := by
  have hcovers : 8 * template.length + 1 ≤ min (Reader.depthFor template.length) depth := by
    rw [Reader.depthFor]
    omega
  have hsame := (Reader.reads_document template _ depth).same hcovers (some [])
    fun _ _ hlookup => nomatch hlookup
  exact hsame.run'_eq

theorem Node.fine_of_parse (template : List Char) : ∃ r : Except MarkupError (Node × ReaderState),
    Node.parse template = r.map (·.1) ∧ Fine template
      (fun tree _ => ∃ v t v' node e, template = v ++ t ++ v' ∧ Blanks v ∧ Blanks v' ∧
        tree = ⟨.document, .over 0 template, [node]⟩ ∧
        Recognizes (.element node e) (byteLength v) t v') r :=
  ⟨_, Node.parse_eq_run' (Nat.le_refl _), (Reader.reads_document template 0 _).fine⟩

/-- An error from reading a template points at what its fault is about. -/
theorem MarkupError.fits_of_parse {e : MarkupError} (h : Node.parse template = .error e) :
    e.Fits template := by
  obtain ⟨r, hparse, hfine⟩ := Node.fine_of_parse template
  rw [h] at hparse
  cases hfine with
  | ok _ => cases hparse
  | error he =>
    cases hparse
    exact he

theorem Node.recognizes_of_parse {tree : Node} (h : Node.parse template = .ok tree) :
    ∃ v t v' node e, template = v ++ t ++ v' ∧ Blanks v ∧ Blanks v' ∧
      tree = ⟨.document, .over 0 template, [node]⟩ ∧
      Recognizes (.element node e) (byteLength v) t v' := by
  obtain ⟨r, hparse, hfine⟩ := Node.fine_of_parse template
  rw [h] at hparse
  cases hfine with
  | ok hfound =>
    cases hparse
    exact hfound
  | error _ => cases hparse

/-- Reading a template gives the same tree or the same error when all elements after parentheses are
read afresh, under any bound on the depth that is no smaller. -/
theorem Node.parse_eq_afresh (source : List Char) :
    Node.parse source = Node.parseWith false source ∧
      ∀ more, (Reader.document (Reader.depthFor source.length + more)).run'
        ⟨.ofText source, none⟩ = Node.parse source := by
  have hcovers : ∀ more, 8 * source.length + 1 ≤ Reader.depthFor source.length + more := by
    intro more
    rw [Reader.depthFor]
    omega
  exact ⟨Node.parse_eq_run' (hcovers 0), fun more => (Node.parse_eq_run' (hcovers more)).symm⟩

end ComponentMarkup
