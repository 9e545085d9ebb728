import ComponentMarkup.Proofs.Element.Reducing

/-!
# Elements as markup

`Element.written` writes an element out as markup. Not every element can be read back: names have to be
names, content must not hold two texts in a row, and the source of an expression has to be one for the
reader of expressions. `Element.Canonical` says all that is needed.

An expression is read between brackets, with the nested elements between parentheses. What is asked of
it is said with an empty pair of parentheses in place of each nested element, so that reading the one text
has to be turned into reading the other (`Recognizes.filled`).
-/

namespace ComponentMarkup

open Text (byteLength isBlank)

/-! ## Writing -/

/-- The quote around a literal: a double one, unless the text has one itself. -/
def quoteFor (text : List Char) : Char :=
  if '"' ∈ text then '\'' else '"'

mutual

/-- An element as markup, self-closing if it has no content. -/
def Element.written (e : Element) : List Char :=
  match e with
  | ⟨tag, attrs, none, _⟩ => '<' :: tag.toList ++ Attribute.writtenAll attrs ++ ['/', '>']
  | ⟨tag, attrs, some items, _⟩ =>
    '<' :: tag.toList ++ Attribute.writtenAll attrs ++ ['>'] ++ ContentItem.writtenAll items ++
      '<' :: '/' :: tag.toList ++ ['>']

def Attribute.writtenAll (attrs : List Attribute) : List Char :=
  match attrs with
  | [] => []
  | ⟨name, value, _⟩ :: rest =>
    ' ' :: name.toList ++ '=' :: value.written ++ Attribute.writtenAll rest

def AttributeValue.written (value : AttributeValue) : List Char :=
  match value with
  | .literal text => quoteFor text.toList :: text.toList ++ [quoteFor text.toList]
  | .expr source => '\x7b' :: source.written ++ ['\x7d']
  | .spread source => '[' :: source.written ++ [']']

def ContentItem.writtenAll (items : List ContentItem) : List Char :=
  match items with
  | [] => []
  | item :: rest => item.written ++ ContentItem.writtenAll rest

def ContentItem.written (item : ContentItem) : List Char :=
  match item with
  | .element e => e.written
  | .literal text => text.toList
  | .expr source => '\x7b' :: source.written ++ ['\x7d']
  | .spread source => '[' :: source.written ++ [']']

/-- The source of an expression, with its nested elements between parentheses. -/
def EmbeddedExpr.written (source : EmbeddedExpr) : List Char :=
  match source with
  | ⟨_, segments⟩ => Segment.writtenAll segments

def Segment.writtenAll (segments : List Segment) : List Char :=
  match segments with
  | [] => []
  | ⟨text, _, none⟩ :: rest => text ++ Segment.writtenAll rest
  | ⟨_, _, some e⟩ :: rest => '(' :: e.written ++ [')'] ++ Segment.writtenAll rest

end

/-! ## Canonical elements -/

namespace Node

mutual

/-- The spans of the string literals in a tree. -/
def strings (node : Node) : List Span :=
  match node with
  | ⟨.stringLiteral, span, _⟩ => [span]
  | ⟨_, _, children⟩ => stringsOfAll children

/-- The spans of the string literals in trees. -/
def stringsOfAll (nodes : List Node) : List Span :=
  match nodes with
  | [] => []
  | node :: rest => node.strings ++ stringsOfAll rest

end

end Node

/-- The characters of cells, with an empty pair of parentheses for each gap. -/
def skeleton {α : Type} : List (Cell Char α) → List Char
  | [] => []
  | .own c :: rest => c :: skeleton rest
  | .gap _ :: rest => '(' :: ')' :: skeleton rest

/-- The offsets of the gaps in a skeleton that begins at an offset. -/
def holes {α : Type} (o : Nat) : List (Cell Char α) → List Nat
  | [] => []
  | .own c :: rest => holes (o + c.utf8Size) rest
  | .gap _ :: rest => o :: holes (o + 2) rest

/-- The reader of expressions consumes the skeleton of cells in full, as the given pieces, and no gap lies
in a string literal. -/
structure ScansAs {α : Type} (cells : List (Cell Char α)) (nodes : List Node) : Prop where
  consumed : ∃ depth s, Reader.pieces depth false ⟨.ofText (skeleton cells), none⟩ = .ok (nodes, s) ∧
    s.cursor.rest = []
  outside : ∀ span ∈ Node.stringsOfAll nodes, ∀ hole ∈ holes 0 cells, span.containsOffset hole = false

/-- No colon of an expression stands outside of brackets and strings. -/
def ColonFree {α : Type} (cells : List (Cell Char α)) : Prop :=
  ∃ nodes, ScansAs cells nodes ∧
    ∀ node ∈ nodes, node.rule = .plain → ':' ∉ node.span.slice (skeleton cells)

/-- The segments of an expression: no two runs of text follow each other, and none is empty, unless it is
the whole expression. -/
structure Segment.Separate (segments : List Segment) : Prop where
  ne_nil : segments ≠ []
  apart : segments.IsChain fun s s' => s.element.isSome ∨ s'.element.isSome
  full : ∀ s ∈ segments, s.element = none → s.text ≠ [] ∨ segments = [s]

/-- No parenthesis of the text itself opens a tag. -/
def Guarded {α : Type} (cells : List (Cell Char α)) : Prop :=
  ∀ w, Blanks w → ¬ ('(' :: w ++ ['<']).map .own <:+: cells

/-- Items of content that can be told apart: no two texts follow each other, and the blanks around the
content are not part of it. -/
structure ContentItem.Separate (items : List ContentItem) : Prop where
  apart : items.IsChain fun i j => ∀ text text', ¬ (i = .literal text ∧ j = .literal text')
  first : ∀ text, items.head? = some (.literal text) → Halts isBlank text.toList
  last : ∀ text c, items.getLast? = some (.literal text) → text.toList.getLast? = some c →
    isBlank c = false

mutual

/-- The element can be written out and read back. -/
def Element.Canonical (e : Element) : Prop :=
  match e with
  | ⟨tag, attrs, none, _⟩ => IsMarkupName tag.toList ∧ Attribute.AllCanonical attrs
  | ⟨tag, attrs, some items, _⟩ => IsMarkupName tag.toList ∧ Attribute.AllCanonical attrs ∧
      ContentItem.AllCanonical items ∧ ContentItem.Separate items

def Attribute.AllCanonical (attrs : List Attribute) : Prop :=
  match attrs with
  | [] => True
  | ⟨name, value, _⟩ :: rest =>
    IsMarkupName name.toList ∧ value.Canonical ∧ Attribute.AllCanonical rest

/-- The value can be written out and read back: a literal avoids one of the quotes, and an expression
between braces has no colon outside of brackets and strings. -/
def AttributeValue.Canonical (value : AttributeValue) : Prop :=
  match value with
  | .literal text => '"' ∉ text.toList ∨ '\'' ∉ text.toList
  | .expr source => source.Canonical ∧ ColonFree source.cells
  | .spread source => source.Canonical

def ContentItem.AllCanonical (items : List ContentItem) : Prop :=
  match items with
  | [] => True
  | item :: rest => item.Canonical ∧ ContentItem.AllCanonical rest

def ContentItem.Canonical (item : ContentItem) : Prop :=
  match item with
  | .element e => e.Canonical
  | .literal text => text.toList ≠ [] ∧ ∀ c ∈ text.toList, Reader.isContentMark c = false
  | .expr source => source.Canonical
  | .spread source => source.Canonical

def EmbeddedExpr.Canonical (source : EmbeddedExpr) : Prop :=
  match source with
  | ⟨_, segments⟩ => Segment.AllCanonical segments ∧ Segment.Separate segments ∧
      Guarded (segments.flatMap Segment.cells) ∧ ∃ nodes, ScansAs (segments.flatMap Segment.cells) nodes

/-- The nested elements can be written out and read back, and the text of each is the element as it is
written. -/
def Segment.AllCanonical (segments : List Segment) : Prop :=
  match segments with
  | [] => True
  | ⟨_, _, none⟩ :: rest => Segment.AllCanonical rest
  | ⟨text, _, some e⟩ :: rest =>
    text = '(' :: e.written ++ [')'] ∧ e.Canonical ∧ Segment.AllCanonical rest

end

/-! ## Skeletons and what they stand for -/

/-- Cells as they are written. -/
def writtenCells : List (Cell Char Element) → List Char
  | [] => []
  | .own c :: rest => c :: writtenCells rest
  | .gap e :: rest => '(' :: e.written ++ [')'] ++ writtenCells rest

/-- A cell as it is read back. -/
def Cell.readBack : Cell Char Element → SourceCell
  | .own c => .own c
  | .gap e => .gap ('(' :: e.written ++ [')'], e.unplaced)

section Skeletons

variable {α : Type} {t r : List Char} {o : Nat}

theorem skeleton_append (front back : List (Cell Char α)) :
    skeleton (front ++ back) = skeleton front ++ skeleton back := by
  induction front with
  | nil => rfl
  | cons cell rest ih => cases cell <;> simp [skeleton, ih]

theorem skeleton_own (t : List Char) : skeleton (t.map .own : List (Cell Char α)) = t := by
  induction t with
  | nil => rfl
  | cons c t ih => simp [skeleton, ih]

theorem holes_append (o : Nat) (front back : List (Cell Char α)) :
    holes o (front ++ back) = holes o front ++ holes (o + byteLength (skeleton front)) back := by
  induction front generalizing o with
  | nil => simp [holes, skeleton]
  | cons cell rest ih =>
    cases cell with
    | own c => simp [holes, skeleton, ih, Nat.add_assoc]
    | gap e =>
      have hsize : byteLength ('(' :: ')' :: skeleton rest) = 2 + byteLength (skeleton rest) := by
        rw [Text.byteLength_cons, Text.byteLength_cons, ← Nat.add_assoc]
        rfl
      simp [holes, skeleton, ih, hsize, ← Nat.add_assoc]

theorem writtenCells_append (front back : List (Cell Char Element)) :
    writtenCells (front ++ back) = writtenCells front ++ writtenCells back := by
  induction front with
  | nil => rfl
  | cons cell rest ih => cases cell <;> simp [writtenCells, ih]

theorem writtenCells_own (t : List Char) : writtenCells (t.map .own) = t := by
  induction t with
  | nil => rfl
  | cons c t ih => simp [writtenCells, ih]

/-- A part of a skeleton without parentheses comes from characters alone. -/
theorem split_skeleton_plain {cells : List (Cell Char α)} (ht : '(' ∉ t) (h : skeleton cells = t ++ r) :
    ∃ back, cells = t.map .own ++ back ∧ skeleton back = r := by
  induction t generalizing cells with
  | nil => exact ⟨cells, rfl, h⟩
  | cons c t ih =>
    cases cells with
    | nil => cases h
    | cons cell rest =>
      cases cell with
      | own d =>
        obtain ⟨rfl, hrest⟩ : d = c ∧ skeleton rest = t ++ r := by simpa [skeleton] using h
        obtain ⟨back, rfl, hback⟩ := ih (fun hmem => ht (List.mem_cons_of_mem d hmem)) hrest
        exact ⟨back, rfl, hback⟩
      | gap e =>
        obtain ⟨rfl, -⟩ : '(' = c ∧ ')' :: skeleton rest = t ++ r := by simpa [skeleton] using h
        exact absurd List.mem_cons_self ht

theorem Span.containsOffset_over_eq_false {offset : Nat} :
    (Span.over o t).containsOffset offset = false ↔ ¬ (o ≤ offset ∧ offset < o + byteLength t) := by
  rw [← Bool.not_eq_true, Span.containsOffset_iff]
  rfl

/-- A part of a skeleton in which no gap begins comes from characters alone. -/
theorem split_skeleton_holes {cells : List (Cell Char α)} (h : skeleton cells = t ++ r)
    (hholes : ∀ hole ∈ holes o cells, (Span.over o t).containsOffset hole = false) :
    ∃ back, cells = t.map .own ++ back ∧ skeleton back = r := by
  induction t generalizing cells o with
  | nil => exact ⟨cells, rfl, h⟩
  | cons c t ih =>
    cases cells with
    | nil => cases h
    | cons cell rest =>
      cases cell with
      | own d =>
        obtain ⟨rfl, hrest⟩ : d = c ∧ skeleton rest = t ++ r := by simpa [skeleton] using h
        obtain ⟨back, rfl, hback⟩ := ih (o := o + d.utf8Size) hrest fun hole hmem => by
          have hout := Span.containsOffset_over_eq_false.mp (hholes hole hmem)
          rw [Text.byteLength_cons] at hout
          exact Span.containsOffset_over_eq_false.mpr (by omega)
        exact ⟨back, rfl, hback⟩
      | gap e =>
        have hout := Span.containsOffset_over_eq_false.mp (hholes o List.mem_cons_self)
        have hpos := byteLength_pos (List.cons_ne_nil c t)
        omega

end Skeletons

theorem Guarded.of_append {α : Type} {a b : List (Cell Char α)} (h : Guarded (a ++ b)) : Guarded b :=
  fun w hw hpart => h w hw (hpart.trans (List.suffix_append a b).isInfix)

/-- What comes after an expression. -/
def EndsExpr (tail : List Char) : Prop :=
  ∀ x, tail.head? = some x → Reader.isCloser x = true

section Filling

variable {cells back : List (Cell Char Element)} {tail : List Char} {x : Char}
  {stopAtColon : Bool} {nodes : List Node} {ks : List SourceCell} {o : Nat} {t r : List Char}
  {rule : Rule} {opening closing : Char}

/-- Written cells begin like their skeleton. -/
theorem head_writtenCells (htail : EndsExpr tail) (hx : (writtenCells back ++ tail).head? = some x) :
    (skeleton back).head? = some x ∨ Reader.isCloser x = true := by
  cases back with
  | nil => exact .inr (htail x hx)
  | cons cell rest => cases cell <;> exact .inl hx

theorem no_tag_ahead {l : List Char} (hblank : isBlank x = false) (hx : x ≠ '<') :
    ¬ ['<'] <+: (x :: l).dropWhile isBlank := by
  rw [List.dropWhile_cons_of_neg (by simp [hblank])]
  exact fun hpre => hx (List.cons_prefix_cons.mp hpre).1.symm

/-- A parenthesis that is guarded is not taken for one around a nested element. -/
theorem noNested_of_guarded (htail : EndsExpr tail) (h : Guarded (.own '(' :: cells)) (o : Nat) :
    Recognizes .noNested o [] ('(' :: (writtenCells cells ++ tail)) := by
  have hnext : ¬ ['<'] <+: (writtenCells cells ++ tail).dropWhile isBlank := by
    have hprefix : ∀ w, Blanks w → ¬ (w ++ ['<']).map .own <+: cells := fun w hw hpre =>
      h w hw (List.prefix_cons_inj _ |>.mpr hpre).isInfix
    clear h
    induction cells with
    | nil =>
      cases tail with
      | nil => simp [writtenCells]
      | cons c tail =>
        have hcases : c = ')' ∨ c = '\x7d' ∨ c = ']' := by
          simpa [Reader.isCloser, or_assoc] using htail c rfl
        rcases hcases with rfl | rfl | rfl <;> exact no_tag_ahead (by decide) (by decide)
    | cons cell rest ih =>
      cases cell with
      | own c =>
        by_cases hc : isBlank c = true
        · rw [writtenCells, List.cons_append, List.dropWhile_cons_of_pos hc]
          refine ih fun w hw hpre => hprefix (c :: w) ?_ (List.prefix_cons_inj _ |>.mpr hpre)
          exact List.forall_mem_cons.mpr ⟨hc, hw⟩
        · refine no_tag_ahead (by simpa using hc) ?_
          rintro rfl
          exact hprefix [] blanks_nil ⟨rest, rfl⟩
      | gap e => exact no_tag_ahead (by decide) (by decide)
  have hnone : Recognizes .noNested o [] ('(' :: (writtenCells cells ++ tail).takeWhile isBlank ++
      (writtenCells cells ++ tail).dropWhile isBlank) :=
    .noElement (fun _ hc => mem_takeWhile hc) (halts_dropWhile _ _) hnext
  rw [List.cons_append, List.takeWhile_append_dropWhile] at hnone
  exact hnone

/-- The element is read back wherever it stands. -/
def Element.ReadBack (e : Element) : Prop :=
  ∀ o rest, ∃ node, Recognizes (.element node e.unplaced) o e.written rest

/-- The cells whose skeleton is the text of a part can be split off, and they are read back as that part. -/
def Sense.Fills (o : Nat) (t r : List Char) : Sense → Prop
  | .pieces stopAtColon nodes _ => ∀ {cells}, skeleton cells = t ++ r → Guarded cells →
      (∀ span ∈ Node.stringsOfAll nodes, ∀ hole ∈ holes o cells, span.containsOffset hole = false) →
      (∀ e, .gap e ∈ cells → e.ReadBack) →
      ∃ front back, cells = front ++ back ∧ skeleton front = t ∧ skeleton back = r ∧
        ∀ {tail}, EndsExpr tail → ∀ o', ∃ nodes', Recognizes
          (.pieces stopAtColon nodes' (front.map Cell.readBack)) o' (writtenCells front)
          (writtenCells back ++ tail)
  | .piece stopAtColon node _ => ∀ {cells}, skeleton cells = t ++ r → Guarded cells →
      (∀ span ∈ node.strings, ∀ hole ∈ holes o cells, span.containsOffset hole = false) →
      (∀ e, .gap e ∈ cells → e.ReadBack) →
      ∃ front back, cells = front ++ back ∧ skeleton front = t ∧ skeleton back = r ∧
        ∀ {tail}, EndsExpr tail → ∀ o', ∃ node', Recognizes
          (.piece stopAtColon node' (front.map Cell.readBack)) o' (writtenCells front)
          (writtenCells back ++ tail)
  | _ => True

theorem endsPieces_of_isCloser (h : Reader.isCloser x = true) :
    endsPieces stopAtColon x = true := by
  rw [endsPieces, h, Bool.true_or]

theorem isPlainChar_of_isCloser (h : Reader.isCloser x = true) :
    isPlainChar stopAtColon x = false := by
  simp [isPlainChar, Reader.isMark, h]

theorem map_readBack_own (t : List Char) : (t.map .own).map Cell.readBack = t.map .own := by
  simp [Cell.readBack]

/-- Pieces do not begin with a closing bracket. -/
theorem Recognizes.pieces_start {rest : List Char}
    (h : Recognizes (.pieces stopAtColon nodes ks) o t rest) (hx : t.head? = some x) :
    Reader.isCloser x = false := by
  cases h with
  | noPieces _ => cases hx
  | pieces hpiece _ =>
    obtain ⟨y, hy, hstart⟩ := hpiece.piece_start
    rw [List.head?_append, hy] at hx
    cases hx
    exact (Bool.or_eq_false_iff.mp hstart).1

theorem strings_group {span : Span} (hgroup : (rule, opening, closing) ∈ groups) :
    Node.strings ⟨rule, span, [.exprOver o t nodes]⟩ = Node.stringsOfAll nodes := by
  have hall : ∀ group ∈ groups, group.1 = .parens ∨ group.1 = .braces ∨ group.1 = .brackets := by decide
  obtain rfl | rfl | rfl := hall _ hgroup <;> exact List.append_nil _

theorem fills_group (hgroup : (rule, opening, closing) ∈ groups)
    (h : Recognizes (.pieces false nodes ks) (o + 1) t ([closing] ++ r))
    (ih : (Sense.pieces false nodes ks).Fills (o + 1) t ([closing] ++ r)) :
    (Sense.piece stopAtColon ⟨rule, .over o (opening :: t ++ [closing]), [.exprOver (o + 1) t nodes]⟩
      (.own opening :: ks ++ [.own closing])).Fills o (opening :: t ++ [closing]) r := by
  intro cells hcells hguarded hholes hread
  cases cells with
  | nil => cases hcells
  | cons cell rest =>
    cases cell with
    | gap e =>
      -- the parentheses of the skeleton stand for a nested element
      obtain ⟨rfl, hrest⟩ : '(' = opening ∧ ')' :: skeleton rest = t ++ closing :: r := by
        simpa [skeleton] using hcells
      obtain rfl : t = [] := by
        cases t with
        | nil => rfl
        | cons c t =>
          obtain ⟨rfl, -⟩ := List.cons_eq_cons.mp hrest
          exact absurd (h.pieces_start rfl) (by decide)
      obtain ⟨rfl, rfl⟩ := List.cons_eq_cons.mp hrest
      refine ⟨[.gap e], rest, rfl, rfl, rfl, fun {tail} _ o' => ?_⟩
      obtain ⟨node, hnode⟩ := hread e List.mem_cons_self (o' + byteLength ['('])
        ([] ++ [')'] ++ (writtenCells rest ++ tail))
      have hnested : Recognizes (.piece stopAtColon
          ⟨.nestedElement, .over o' ('(' :: e.written ++ [')']), [node]⟩
          [.gap ('(' :: e.written ++ [')'], e.unplaced)]) o' ('(' :: e.written ++ [')'])
          (writtenCells rest ++ tail) := .nested blanks_nil hnode blanks_nil (by simp)
      exact ⟨_, by simpa [writtenCells, Cell.readBack] using hnested⟩
    | own c =>
      obtain ⟨rfl, hrest⟩ : c = opening ∧ skeleton rest = t ++ closing :: r := by
        simpa [skeleton] using hcells
      have hsize := utf8Size_of_group hgroup
      have hholes' : ∀ span ∈ Node.stringsOfAll nodes, ∀ hole ∈ holes (o + 1) rest,
          span.containsOffset hole = false := by
        intro span hspan hole hhole
        refine hholes span ?_ hole (by rw [holes, hsize]; exact hhole)
        rw [strings_group hgroup]
        exact hspan
      have hguarded' : Guarded rest := Guarded.of_append (a := [.own c]) hguarded
      obtain ⟨front, back, rfl, rfl, hback, hfill⟩ := ih hrest hguarded' hholes'
        fun e he => hread e (List.mem_cons_of_mem _ he)
      have hclosing : ∀ group ∈ groups, group.2.2 ≠ '(' := by decide
      cases back with
      | nil => cases hback
      | cons cell back =>
        cases cell with
        | gap e => exact absurd (List.cons_eq_cons.mp hback).1.symm (hclosing _ hgroup)
        | own d =>
          obtain ⟨rfl, rfl⟩ := List.cons_eq_cons.mp hback
          refine ⟨.own c :: front ++ [.own d], back, by simp, by simp [skeleton, skeleton_append], rfl,
            fun {tail} htail o' => ?_⟩
          obtain ⟨nodes', hnodes⟩ := hfill htail (o' + 1)
          have hnested : c = '(' → Recognizes .noNested o' []
              (c :: writtenCells front ++ [d] ++ (writtenCells back ++ tail)) := by
            rintro rfl
            simpa [writtenCells_append, writtenCells] using noNested_of_guarded htail hguarded o'
          have hpiece : Recognizes (.piece stopAtColon
              ⟨rule, .over o' (c :: writtenCells front ++ [d]),
                [.exprOver (o' + 1) (writtenCells front) nodes']⟩
              (.own c :: front.map Cell.readBack ++ [.own d])) o' (c :: writtenCells front ++ [d])
              (writtenCells back ++ tail) := .group hgroup hnested hnodes
          exact ⟨_, by simpa [writtenCells, writtenCells_append, Cell.readBack] using hpiece⟩

theorem Recognizes.filled {sense : Sense} (h : Recognizes sense o t r) : sense.Fills o t r := by
  induction h with
  | noPieces hend =>
    intro cells hcells _ _ _
    refine ⟨[], cells, rfl, rfl, hcells, fun htail o' => ⟨[], .noPieces fun x hx => ?_⟩⟩
    obtain hhead | hclose := head_writtenCells htail hx
    · exact hend x (by rw [← hhead, hcells]; rfl)
    · exact endsPieces_of_isCloser hclose
  | @pieces o stopAtColon t node ks u nodes more rest _ _ ih₁ ih₂ =>
    intro cells hcells hguarded hholes hread
    rw [List.append_assoc] at hcells
    obtain ⟨front, mid, rfl, rfl, hmid, hfill₁⟩ := ih₁ hcells hguarded
      (fun span hspan => hholes span (List.mem_append_left _ hspan)) hread
    obtain ⟨front', back, rfl, rfl, rfl, hfill₂⟩ := ih₂ hmid hguarded.of_append
      (fun span hspan hole hhole => hholes span (List.mem_append_right _ hspan) hole (by
        rw [holes_append]
        exact List.mem_append_right _ hhole))
      (fun e he => hread e (List.mem_append_right _ he))
    refine ⟨front ++ front', back, by simp, by simp [skeleton_append], rfl, fun {tail} htail o' => ?_⟩
    obtain ⟨node', hnode⟩ := hfill₁ htail o'
    obtain ⟨nodes', hnodes⟩ := hfill₂ htail (o' + byteLength (writtenCells front))
    rw [writtenCells_append, List.append_assoc] at hnode
    rw [List.map_append, writtenCells_append]
    exact ⟨_, .pieces hnode hnodes⟩
  | @string o stopAtColon t rest ht hends =>
    intro cells hcells _ hholes _
    obtain ⟨back, rfl, rfl⟩ := split_skeleton_holes hcells
      (hholes (.over o t) List.mem_cons_self)
    refine ⟨t.map .own, back, rfl, skeleton_own t, rfl, fun {tail} htail o' => ?_⟩
    rw [writtenCells_own, map_readBack_own]
    refine ⟨_, .string ht fun quote hquote htext hhead => ?_⟩
    obtain hhead | hclose := head_writtenCells htail hhead
    · exact hends quote hquote htext hhead
    · rcases eq_of_stringQuotes hquote with rfl | rfl <;> cases hclose
  | @plain o stopAtColon t rest hne ht hhalts =>
    intro cells hcells _ _ _
    have hparen : '(' ∉ t := fun hmem => by
      have hplain := ht '(' hmem
      cases hplain
    obtain ⟨back, rfl, rfl⟩ := split_skeleton_plain hparen hcells
    refine ⟨t.map .own, back, rfl, skeleton_own t, rfl, fun {tail} htail o' => ?_⟩
    rw [writtenCells_own, map_readBack_own]
    refine ⟨_, .plain hne ht fun x hx => ?_⟩
    obtain hhead | hclose := head_writtenCells htail hx
    · exact hhalts x hhead
    · exact isPlainChar_of_isCloser hclose
  | group hgroup _ h _ ih => exact fills_group hgroup h ih
  | @nested o stopAtColon w t node e w' text rest hw h _ htext _ =>
    -- only a parenthesis of the text itself could open a tag, but it is guarded
    intro cells hcells hguarded _ _
    obtain ⟨v, name, more, rfl, -, -⟩ := h.element_start
    have hnoParen : '(' ∉ w ++ ['<'] := fun hmem => by
      rcases List.mem_append.mp hmem with hmem | hmem
      · exact absurd (hw '(' hmem) (by decide)
      · exact absurd hmem (by decide)
    cases cells with
    | nil =>
      rw [htext] at hcells
      cases hcells
    | cons cell cells =>
      have htail : (skeleton (cell :: cells)).tail =
          w ++ ['<'] ++ (v ++ name ++ more ++ w' ++ [')'] ++ rest) := by
        rw [hcells, htext]
        simp
      cases cell with
      | gap e =>
        cases w with
        | nil => cases htail
        | cons c w =>
          obtain ⟨rfl, -⟩ := List.cons_eq_cons.mp htail
          exact absurd (hw ')' List.mem_cons_self) (by decide)
      | own c =>
        obtain rfl : c = '(' := by
          rw [htext] at hcells
          exact (List.cons_eq_cons.mp hcells).1
        obtain ⟨back, rfl, -⟩ := split_skeleton_plain hnoParen htail
        exact absurd ⟨[], back, by simp⟩ (hguarded w hw)
  | _ => trivial

end Filling

end ComponentMarkup
