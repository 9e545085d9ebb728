import ComponentMarkup.Proofs.Element.Unplaced

/-!
# What texts stand for

`Recognizes sense o t rest` says that the text `t` at the offset `o`, with `rest` after it, is read as a
part of a template. The sense of a part holds its nodes, with their rules, spans and children, and what
they stand for, places apart.

The relation says all that reading depends on: how far names and runs of text go, and that parentheses
and braces are not taken for a nested element or for a key and a value. The text that follows matters for
both. So the relation and the reader agree in both directions.
-/

namespace ComponentMarkup

open Text (byteLength isBlank)

variable {e : Element}

/-- A part of a template: its nodes, and what they stand for without places. -/
inductive Sense where
  | element (node : Node) (e : Element)
  | attributes (nodes : List Node) (attrs : List Attribute)
  | value (node : Node) (value : AttributeValue)
  | items (nodes : List Node) (items : List ContentItem)
  | item (node : Node) (item : ContentItem)
  /-- The pieces of an expression, which a colon outside of brackets may end. -/
  | pieces (stopAtColon : Bool) (nodes : List Node) (cells : List SourceCell)
  | piece (stopAtColon : Bool) (node : Node) (cells : List SourceCell)
  /-- What follows is no element between parentheses. -/
  | noNested
  /-- What follows is no key and value between braces. -/
  | noDict

/-- A character of plain text in an expression, which a colon may end too. -/
def isPlainChar (stopAtColon : Bool) (x : Char) : Bool :=
  !Reader.isMark x && !(stopAtColon && x == ':')

/-- A character that ends the pieces of an expression. -/
def endsPieces (stopAtColon : Bool) (x : Char) : Bool :=
  Reader.isCloser x || (stopAtColon && x == ':')

/-- A text at an offset, with another one after it, is read as a part of a template. -/
inductive Recognizes : Sense → Nat → List Char → List Char → Prop where
  | selfClosing {o w name t w' attrs as text rest} : Blanks w → IsMarkupName name →
      Halts Cursor.isNameChar t →
      Recognizes (.attributes attrs as) (o + byteLength ('<' :: w ++ name)) t
        (w' ++ ['/', '>'] ++ rest) →
      Blanks w' → text = '<' :: w ++ name ++ t ++ w' ++ ['/', '>'] →
      Recognizes (.element ⟨.selfClosing, .over o text,
          .leafOver .tagName (o + byteLength ('<' :: w)) name :: attrs⟩
        ⟨String.ofList name, as, none, .empty 0⟩) o text rest
  | normal {o w name t w' attrs as opening v body items contents u u' closing rest} : Blanks w →
      IsMarkupName name → Halts Cursor.isNameChar t →
      Recognizes (.attributes attrs as) (o + byteLength ('<' :: w ++ name)) t
        (w' ++ ['>'] ++ v ++ body ++ closing ++ rest) →
      Blanks w' → opening = '<' :: w ++ name ++ t ++ w' ++ ['>'] → Blanks v → Halts isBlank body →
      Recognizes (.items items contents) (o + byteLength (opening ++ v)) body (closing ++ rest) →
      Blanks u → Blanks u' → closing = '<' :: '/' :: u ++ name ++ u' ++ ['>'] →
      Recognizes (.element ⟨.normal, .over o (opening ++ v ++ body ++ closing),
          [⟨.openTag, .over o opening,
              .leafOver .tagName (o + byteLength ('<' :: w)) name :: attrs⟩,
            ⟨.content, .over (o + byteLength (opening ++ v)) body, items⟩,
            ⟨.closeTag, .over (o + byteLength (opening ++ v ++ body)) closing,
              [.leafOver .tagName
                (o + byteLength (opening ++ v ++ body ++ '<' :: '/' :: u)) name]⟩]⟩
        ⟨String.ofList name, as, some (Reduction.trimContent contents), .empty 0⟩)
        o (opening ++ v ++ body ++ closing) rest
  | noAttributes {o rest} : Halts Cursor.isNameStart (rest.dropWhile isBlank) →
      Recognizes (.attributes [] []) o [] rest
  | moreAttributes {o w name u u' t node value text more attrs as rest} : Blanks w →
      IsMarkupName name → Blanks u → Blanks u' →
      Recognizes (.value node value) (o + byteLength (w ++ name ++ u ++ '=' :: u')) t
        (more ++ rest) →
      text = name ++ u ++ '=' :: u' ++ t →
      Recognizes (.attributes attrs as) (o + byteLength (w ++ text)) more rest →
      Recognizes (.attributes (⟨.attribute, .over (o + byteLength w) text,
          [.leafOver .attrName (o + byteLength w) name, node]⟩ :: attrs)
        (⟨String.ofList name, value, .empty 0⟩ :: as)) o (w ++ text ++ more) rest
  | quoted {o quote body rest} : [quote] ∈ stringQuotes → quote ∉ body →
      Recognizes (.value (.leafOver .quotedLiteral o (quote :: body ++ [quote]))
        (.literal (String.ofList body))) o (quote :: body ++ [quote]) rest
  | dict {o key keys keyCells value values valueCells rest} :
      Recognizes (.pieces true keys keyCells) (o + 1) key (':' :: value ++ ['\x7d'] ++ rest) →
      Recognizes (.pieces false values valueCells) (o + byteLength ('\x7b' :: key ++ [':'])) value
        (['\x7d'] ++ rest) →
      Recognizes (.value ⟨.dictShorthand, .over o ('\x7b' :: key ++ ':' :: value ++ ['\x7d']),
          [.exprOver (o + 1) key keys,
            .exprOver (o + byteLength ('\x7b' :: key ++ [':'])) value values]⟩
        (.expr (.ofCells (.own '\x7b' :: keyCells ++ .own ':' :: valueCells ++ [.own '\x7d']))))
        o ('\x7b' :: key ++ ':' :: value ++ ['\x7d']) rest
  | braces {o t nodes cells rest} : Recognizes .noDict o [] ('\x7b' :: t ++ ['\x7d'] ++ rest) →
      Recognizes (.pieces false nodes cells) (o + 1) t (['\x7d'] ++ rest) →
      Recognizes (.value ⟨.exprValue, .over o ('\x7b' :: t ++ ['\x7d']),
        [.exprOver (o + 1) t nodes]⟩ (.expr (.ofCells cells))) o ('\x7b' :: t ++ ['\x7d']) rest
  | brackets {o t nodes cells rest} :
      Recognizes (.pieces false nodes cells) (o + 1) t ([']'] ++ rest) →
      Recognizes (.value ⟨.exprListValue, .over o ('[' :: t ++ [']']),
        [.exprOver (o + 1) t nodes]⟩ (.spread (.ofCells cells))) o ('[' :: t ++ [']']) rest
  | noItems {o rest} : (rest = [] ∨ ['<', '/'] <+: rest) → Recognizes (.items [] []) o [] rest
  | items {o t node item u nodes more rest} : Recognizes (.item node item) o t (u ++ rest) →
      Recognizes (.items nodes more) (o + byteLength t) u rest →
      Recognizes (.items (node :: nodes) (item :: more)) o (t ++ u) rest
  | elementItem {o t node e rest} : Recognizes (.element node e) o t rest →
      Recognizes (.item node (.element e)) o t rest
  | braceItem {o t nodes cells rest} :
      Recognizes (.pieces false nodes cells) (o + 1) t (['\x7d'] ++ rest) →
      Recognizes (.item ⟨.contentExpr, .over o ('\x7b' :: t ++ ['\x7d']),
        [.exprOver (o + 1) t nodes]⟩ (.expr (.ofCells cells))) o ('\x7b' :: t ++ ['\x7d']) rest
  | bracketItem {o t nodes cells rest} :
      Recognizes (.pieces false nodes cells) (o + 1) t ([']'] ++ rest) →
      Recognizes (.item ⟨.contentExprList, .over o ('[' :: t ++ [']']),
        [.exprOver (o + 1) t nodes]⟩ (.spread (.ofCells cells))) o ('[' :: t ++ [']']) rest
  | text {o t rest} : t ≠ [] → (∀ c ∈ t, (!Reader.isContentMark c) = true) →
      Halts (fun c => !Reader.isContentMark c) rest →
      Recognizes (.item (.leafOver .text o t) (.literal (String.ofList t))) o t rest
  | noPieces {o stopAtColon rest} :
      (∀ x, rest.head? = some x → endsPieces stopAtColon x = true) →
      Recognizes (.pieces stopAtColon [] []) o [] rest
  | pieces {o stopAtColon t node cells u nodes more rest} :
      Recognizes (.piece stopAtColon node cells) o t (u ++ rest) →
      Recognizes (.pieces stopAtColon nodes more) (o + byteLength t) u rest →
      Recognizes (.pieces stopAtColon (node :: nodes) (cells ++ more)) o (t ++ u) rest
  | string {o stopAtColon t rest} : IsStringLiteral t → EndsBefore t rest →
      Recognizes (.piece stopAtColon (.leafOver .stringLiteral o t) (t.map .own)) o t rest
  | plain {o stopAtColon t rest} : t ≠ [] → (∀ c ∈ t, isPlainChar stopAtColon c = true) →
      Halts (isPlainChar stopAtColon) rest →
      Recognizes (.piece stopAtColon (.leafOver .plain o t) (t.map .own)) o t rest
  | group {o stopAtColon rule opening closing t nodes cells rest} :
      (rule, opening, closing) ∈ groups →
      (opening = '(' → Recognizes .noNested o [] (opening :: t ++ [closing] ++ rest)) →
      Recognizes (.pieces false nodes cells) (o + 1) t ([closing] ++ rest) →
      Recognizes (.piece stopAtColon
          ⟨rule, .over o (opening :: t ++ [closing]), [.exprOver (o + 1) t nodes]⟩
        (.own opening :: cells ++ [.own closing])) o (opening :: t ++ [closing]) rest
  | nested {o stopAtColon w t node e w' text rest} : Blanks w →
      Recognizes (.element node e) (o + byteLength ('(' :: w)) t (w' ++ [')'] ++ rest) →
      Blanks w' → text = '(' :: w ++ t ++ w' ++ [')'] →
      Recognizes (.piece stopAtColon ⟨.nestedElement, .over o text, [node]⟩ [.gap (text, e)])
        o text rest
  | noElement {o w rest} : Blanks w → Halts isBlank rest → ¬ ['<'] <+: rest →
      Recognizes .noNested o [] ('(' :: w ++ rest)
  | noParen {o w t node e w' rest} : Blanks w →
      Recognizes (.element node e) (o + byteLength ('(' :: w)) t (w' ++ rest) → Blanks w' →
      Halts isBlank rest → ¬ [')'] <+: rest → Recognizes .noNested o [] ('(' :: w ++ t ++ w' ++ rest)
  | noColon {o key keys cells rest} : Recognizes (.pieces true keys cells) (o + 1) key rest →
      ¬ [':'] <+: rest → Recognizes .noDict o [] ('\x7b' :: key ++ rest)
  | noBrace {o key keys keyCells value values valueCells rest} :
      Recognizes (.pieces true keys keyCells) (o + 1) key (':' :: value ++ rest) →
      Recognizes (.pieces false values valueCells) (o + byteLength ('\x7b' :: key ++ [':'])) value
        rest →
      ¬ ['\x7d'] <+: rest → Recognizes .noDict o [] ('\x7b' :: key ++ ':' :: value ++ rest)

/-! ## How parts begin and end -/

section Starts

variable {o : Nat} {t rest : List Char} {node : Node} {stopAtColon : Bool}

theorem Recognizes.element_start (h : Recognizes (.element node e) o t rest) :
    ∃ w name more, t = '<' :: (w ++ name ++ more) ∧ Blanks w ∧ IsMarkupName name := by
  cases h with
  | @selfClosing _ w name t w' _ _ _ _ hw hname _ _ _ htext =>
    exact ⟨w, name, t ++ w' ++ ['/', '>'], by simp [htext], hw, hname⟩
  | @normal _ w name t w' _ _ opening v body _ _ _ _ closing _ hw hname _ _ _ hopening _ _ _ _ _ _ =>
    exact ⟨w, name, t ++ w' ++ ['>'] ++ v ++ body ++ closing, by simp [hopening], hw, hname⟩

theorem Recognizes.element_halts (h : Recognizes (.element node e) o t rest) {more : List Char} :
    Halts isBlank (t ++ more) := by
  obtain ⟨w, name, s, rfl, -, -⟩ := h.element_start
  exact halts_cons.mpr (by decide)

/-- The start of an element is no close tag. -/
theorem Recognizes.element_not_closing (h : Recognizes (.element node e) o t rest) :
    t.head? = some '<' ∧ ¬ ['<', '/'] <+: t ++ rest := by
  obtain ⟨w, name, more, rfl, hw, hname⟩ := h.element_start
  refine ⟨rfl, fun hpre => ?_⟩
  have hslash : ['/'] <+: w ++ name ++ more ++ rest := (List.cons_prefix_cons.mp hpre).2
  cases w with
  | nil =>
    obtain ⟨c, hc, hstart⟩ := hname.start
    obtain ⟨name, rfl⟩ := List.head?_eq_some_iff.mp hc
    obtain rfl : '/' = c := (List.cons_prefix_cons.mp hslash).1
    cases hstart
  | cons k w =>
    obtain rfl : '/' = k := (List.cons_prefix_cons.mp hslash).1
    exact absurd (hw '/' List.mem_cons_self) (by decide)

/-- The value of an attribute begins with a quote or a bracket. -/
theorem Recognizes.value_start {value : AttributeValue} (h : Recognizes (.value node value) o t rest)
    (more : List Char) : Halts isBlank (t ++ more) := by
  cases h with
  | quoted hquote _ => exact halts_cons.mpr (isBlank_of_stringQuotes hquote)
  | dict _ _ => exact halts_cons.mpr (by decide)
  | braces _ _ => exact halts_cons.mpr (by decide)
  | brackets _ => exact halts_cons.mpr (by decide)

theorem Recognizes.item_start {item : ContentItem} (h : Recognizes (.item node item) o t rest) :
    t ≠ [] ∧ ¬ ['<', '/'] <+: t ++ rest := by
  cases h with
  | elementItem h =>
    obtain ⟨hhead, hclose⟩ := h.element_not_closing
    refine ⟨?_, hclose⟩
    rintro rfl
    cases hhead
  | braceItem _ => exact ⟨by simp, by simp⟩
  | bracketItem _ => exact ⟨by simp, by simp⟩
  | text hne hmarks _ =>
    refine ⟨hne, fun hpre => ?_⟩
    obtain ⟨x, t, rfl⟩ := List.exists_cons_of_ne_nil hne
    obtain rfl : '<' = x := (List.cons_prefix_cons.mp hpre).1
    exact absurd (hmarks '<' List.mem_cons_self) (by decide)

theorem endsPieces_of_isPlainChar {x : Char} (h : isPlainChar stopAtColon x = true) :
    endsPieces stopAtColon x = false := by
  simp only [isPlainChar, Bool.and_eq_true, Bool.not_eq_true'] at h
  have hmark := h.1
  simp only [Reader.isMark, Bool.or_eq_false_iff] at hmark
  simp [endsPieces, h.2, hmark.1.1.1.1.1]

theorem Recognizes.piece_start {cells : List SourceCell}
    (h : Recognizes (.piece stopAtColon node cells) o t rest) :
    ∃ x, t.head? = some x ∧ endsPieces stopAtColon x = false := by
  cases h with
  | string ht _ =>
    obtain ⟨quotes, hquotes, body, -, rfl⟩ := ht
    obtain ⟨q, hq, hquotes⟩ := exists_of_stringQuotes hquotes
    refine ⟨q, ?_, ?_⟩
    · rcases hquotes with rfl | rfl <;> rfl
    · rcases eq_of_stringQuotes hq with rfl | rfl <;> cases stopAtColon <;> rfl
  | plain hne ht _ =>
    obtain ⟨x, t, rfl⟩ := List.exists_cons_of_ne_nil hne
    exact ⟨x, rfl, endsPieces_of_isPlainChar (ht x List.mem_cons_self)⟩
  | @group _ _ _ opening _ _ _ _ _ hgroup _ _ =>
    have hall : ∀ group ∈ groups, ∀ stop, endsPieces stop group.2.1 = false := by decide
    exact ⟨opening, rfl, hall _ hgroup stopAtColon⟩
  | nested _ _ _ htext =>
    refine ⟨'(', by rw [htext]; rfl, ?_⟩
    cases stopAtColon <;> rfl

end Starts

theorem Recognizes.items_end {nodes : List Node} {items : List ContentItem}
    (h : Recognizes (.items nodes items) o t rest) : rest = [] ∨ ['<', '/'] <+: rest := by
  generalize hsense : Sense.items nodes items = sense at h
  induction h generalizing nodes items with
  | noItems hend => exact hend
  | items _ _ _ ih => exact ih rfl
  | _ => cases hsense

end ComponentMarkup
