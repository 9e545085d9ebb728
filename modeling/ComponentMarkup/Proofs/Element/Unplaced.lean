import ComponentMarkup.Element.OfNode
import ComponentMarkup.Proofs.Element.Parts
import ComponentMarkup.Proofs.Element.Weaving

/-!
# Elements without places

Two templates may stand for the same element although its parts stand at different places.
`Element.unplaced` forgets all spans, so elements that agree up to places become equal.

The source of an expression is then given by its cells alone: the characters of the template, and for
each nested element a gap with the text it takes and the element. `Weaves` says how a stretch of the
template and the elements recorded for it make up cells, and `NestedIndex.take` gives the segments with
just these cells.
-/

namespace ComponentMarkup

open Text (byteLength)

mutual

/-- An element without its spans. -/
def Element.unplaced (e : Element) : Element :=
  match e with
  | ⟨tag, attrs, content, _⟩ =>
    ⟨tag, Attribute.unplacedAll attrs, ContentItem.unplacedOptional content, .empty 0⟩

def Attribute.unplacedAll (attrs : List Attribute) : List Attribute :=
  match attrs with
  | [] => []
  | ⟨name, value, _⟩ :: rest => ⟨name, value.unplaced, .empty 0⟩ :: Attribute.unplacedAll rest

def AttributeValue.unplaced (value : AttributeValue) : AttributeValue :=
  match value with
  | .literal text => .literal text
  | .expr source => .expr source.unplaced
  | .spread source => .spread source.unplaced

def ContentItem.unplacedOptional (content : Option (List ContentItem)) :
    Option (List ContentItem) :=
  match content with
  | none => none
  | some items => some (ContentItem.unplacedAll items)

def ContentItem.unplacedAll (items : List ContentItem) : List ContentItem :=
  match items with
  | [] => []
  | item :: rest => item.unplaced :: ContentItem.unplacedAll rest

def ContentItem.unplaced (item : ContentItem) : ContentItem :=
  match item with
  | .element e => .element e.unplaced
  | .literal text => .literal text
  | .expr source => .expr source.unplaced
  | .spread source => .spread source.unplaced

def EmbeddedExpr.unplaced (source : EmbeddedExpr) : EmbeddedExpr :=
  match source with
  | ⟨_, segments⟩ => ⟨.empty 0, Segment.unplacedAll segments⟩

def Segment.unplacedAll (segments : List Segment) : List Segment :=
  match segments with
  | [] => []
  | ⟨text, _, none⟩ :: rest => ⟨text, .empty 0, none⟩ :: Segment.unplacedAll rest
  | ⟨text, _, some e⟩ :: rest => ⟨text, .empty 0, some e.unplaced⟩ :: Segment.unplacedAll rest

end

/-- A part without its spans. -/
def Element.Part.unplaced : Part → Part
  | .element e => .element e.unplaced
  | .attributes attrs => .attributes (Attribute.unplacedAll attrs)
  | .value v => .value v.unplaced
  | .content items? => .content (ContentItem.unplacedOptional items?)
  | .items is => .items (ContentItem.unplacedAll is)
  | .item i => .item i.unplaced
  | .source kind inner => .source kind inner.unplaced
  | .segments ss => .segments (Segment.unplacedAll ss)

theorem Segment.unplacedAll_append (segments more : List Segment) :
    unplacedAll (segments ++ more) = unplacedAll segments ++ unplacedAll more := by
  induction segments with
  | nil => rfl
  | cons segment rest ih =>
    obtain ⟨text, span, _ | e⟩ := segment <;> simp [unplacedAll, ih]

/-- Blanks at the end of content are dropped wherever the content stands. -/
theorem ContentItem.unplacedAll_trimContent (items : List ContentItem) :
    unplacedAll (Reduction.trimContent items) = Reduction.trimContent (unplacedAll items) := by
  fun_induction Reduction.trimContent items with
  | case1 => rfl
  | case2 text trimmed hempty =>
    change [] = Reduction.trimContent [.literal text]
    rw [Reduction.trimContent, if_pos hempty]
  | case3 text trimmed hsome =>
    change [.literal (String.ofList trimmed)] = Reduction.trimContent [.literal text]
    rw [Reduction.trimContent, if_neg hsome]
  | case4 item rest hlast ih =>
    have hkeep : Reduction.trimContent (item.unplaced :: unplacedAll rest) =
        item.unplaced :: Reduction.trimContent (unplacedAll rest) := by
      rw [Reduction.trimContent]
      rintro text heq
      cases item <;> cases rest <;> simp_all [unplaced, unplacedAll]
    rw [unplacedAll, unplacedAll, ih, hkeep]

namespace Reduction

variable {s t : List Char} {i : ContentItem} {items : List ContentItem}

theorem trimContent_cons (h : items ≠ []) : trimContent (i :: items) = i :: trimContent items := by
  cases items with
  | nil => exact absurd rfl h
  | cons j items => cases i <;> rfl

theorem trimContent_single (h : ∀ text, i ≠ .literal text) : trimContent [i] = [i] := by
  cases i with
  | literal text => exact absurd rfl (h text)
  | _ => rfl

/-- Blanks that follow a text at the end of content make no difference. -/
theorem trimContent_text (hs : Blanks s) :
    trimContent [.literal (String.ofList (t ++ s))] = trimContent [.literal (String.ofList t)] := by
  have hreverse : ∀ c ∈ s.reverse, Text.isBlank c = true := fun c hc => hs c (List.mem_reverse.mp hc)
  have htrim : Text.trimEnd Text.isBlank (t ++ s) = Text.trimEnd Text.isBlank t := by
    rw [Text.trimEnd, List.reverse_append, List.dropWhile_append_of_pos hreverse]
    rfl
  rw [trimContent, trimContent, String.toList_ofList, String.toList_ofList, htrim]

theorem trimContent_blanks (hs : Blanks s) : trimContent [.literal (String.ofList s)] = [] :=
  trimContent_text (t := []) hs

theorem trimContent_keeps {text : String} {c : Char} (hlast : text.toList.getLast? = some c)
    (hc : Text.isBlank c = false) : trimContent [.literal text] = [.literal text] := by
  obtain ⟨front, hfront⟩ := List.getLast?_eq_some_iff.mp hlast
  have htrim : Text.trimEnd Text.isBlank text.toList = text.toList := by
    rw [hfront, Text.trimEnd, List.reverse_concat, List.dropWhile_cons_of_neg (by simp [hc])]
    simp
  have hsome : text.toList.isEmpty = false := by
    rw [hfront]
    simp
  rw [trimContent, htrim, hsome, String.ofList_toList]
  rfl

end Reduction

/-! ## Expressions put together from cells -/

/-- A character of the source of an expression, or a nested element with the text it takes. -/
abbrev SourceCell := Cell Char (List Char × Element)

/-- A run of plain text, if it is not empty. -/
def Segment.ofRun (run : List Char) : List Segment :=
  if run = [] then [] else [⟨run, .empty 0, none⟩]

/-- The segments of cells, after a run of plain text. -/
def Segment.ofCells (run : List Char) : List SourceCell → List Segment
  | [] => ofRun run
  | .own c :: rest => ofCells (run ++ [c]) rest
  | .gap (text, e) :: rest => ofRun run ++ ⟨text, .empty 0, some e⟩ :: ofCells [] rest

/-- The source with the given cells. Without any it is one empty run. -/
def EmbeddedExpr.ofCells (cells : List SourceCell) : EmbeddedExpr :=
  match Segment.ofCells [] cells with
  | [] => ⟨.empty 0, [⟨[], .empty 0, none⟩]⟩
  | segments => ⟨.empty 0, segments⟩

/-- Something is collected from the elements nested in segments, and for each of them as for its
cell. -/
structure Segment.Collects {α : Type} (collect : List Segment → List α)
    (each : SourceCell → List α) : Prop where
  nil : collect [] = []
  plain : ∀ text span rest, collect (⟨text, span, none⟩ :: rest) = collect rest
  nested : ∀ text span e rest,
    collect (⟨text, span, some e⟩ :: rest) = each (.gap (text, e)) ++ collect rest
  own : ∀ c, each (.own c) = []

namespace Segment.Collects

variable {α : Type} {collect : List Segment → List α} {each : SourceCell → List α}

theorem ofRun (h : Collects collect each) (run : List Char) (rest : List Segment) :
    collect (Segment.ofRun run ++ rest) = collect rest := by
  rw [Segment.ofRun]
  split
  · rfl
  · exact h.plain _ _ _

theorem ofCells (h : Collects collect each) (run : List Char) (cells : List SourceCell) :
    collect (Segment.ofCells run cells) = cells.flatMap each := by
  induction cells generalizing run with
  | nil =>
    have hrun := h.ofRun run []
    rw [List.append_nil, h.nil] at hrun
    exact hrun
  | cons cell rest ih =>
    cases cell with
    | own c =>
      rw [List.flatMap_cons, h.own]
      exact ih (run ++ [c])
    | gap filler =>
      obtain ⟨text, e⟩ := filler
      rw [Segment.ofCells, h.ofRun, h.nested, ih, List.flatMap_cons]

theorem segments_ofCells (h : Collects collect each) (cells : List SourceCell) :
    collect (EmbeddedExpr.ofCells cells).segments = cells.flatMap each := by
  rw [← h.ofCells [] cells, EmbeddedExpr.ofCells]
  split
  · next hnone => rw [hnone, h.plain]
  · rfl

/-- Nothing is collected from plain text. -/
theorem flatMap_own (h : Collects collect each) (t : List Char) :
    (t.map .own).flatMap each = [] := by
  induction t with
  | nil => rfl
  | cons c t ih => rw [List.map_cons, List.flatMap_cons, h.own, ih, List.append_nil]

/-- Brackets around cells are plain text. -/
theorem flatMap_enclosed (h : Collects collect each) (opening closing : Char)
    (cells : List SourceCell) :
    (Cell.own opening :: cells ++ [Cell.own closing]).flatMap each = cells.flatMap each := by
  rw [List.flatMap_append, List.flatMap_cons, List.flatMap_singleton, h.own, h.own,
    List.nil_append, List.append_nil]

end Segment.Collects

/-! ## Weaving -/

/-- A text at an offset and the elements that are nested in it make up cells. -/
inductive Weaves : Nat → List Char → List NestedElement → List SourceCell → Prop where
  | nil {o} : Weaves o [] [] []
  | char {o c t nested cells} : Weaves (o + c.utf8Size) t nested cells →
      Weaves o (c :: t) nested (.own c :: cells)
  | nested {o u t e nested cells} : u ≠ [] → Weaves (o + byteLength u) t nested cells →
      Weaves o (u ++ t) (⟨.over o u, e⟩ :: nested) (.gap (u, e.unplaced) :: cells)

theorem weaves_text (o : Nat) (t : List Char) : Weaves o t [] (t.map .own) := by
  induction t generalizing o with
  | nil => exact .nil
  | cons c t ih => exact .char (ih _)

section Weaves

variable {o : Nat} {t : List Char} {nested : List NestedElement} {cells : List SourceCell}

theorem Weaves.append {t' : List Char} {nested' : List NestedElement} {cells' : List SourceCell}
    (h : Weaves o t nested cells) (h' : Weaves (o + byteLength t) t' nested' cells') :
    Weaves o (t ++ t') (nested ++ nested') (cells ++ cells') := by
  induction h with
  | nil => exact h'
  | @char o c t nested cells _ ih =>
    refine .char (ih ?_)
    rw [Nat.add_assoc]
    exact h'
  | @nested o u t e nested cells hu _ ih =>
    rw [List.append_assoc]
    refine .nested hu (ih ?_)
    rw [Nat.add_assoc, ← Text.byteLength_append]
    exact h'

/-- Nested elements lie inside of the text, and none of them is empty. -/
theorem Weaves.span_bounds (h : Weaves o t nested cells) :
    ∀ x ∈ nested, o ≤ x.span.start ∧ x.span.start < x.span.stop ∧
      x.span.stop ≤ o + byteLength t := by
  induction h with
  | nil => simp
  | @char o c t nested cells _ ih =>
    intro x hx
    have hbounds := ih x hx
    rw [Text.byteLength_cons]
    omega
  | @nested o u t e nested cells hu _ ih =>
    intro x hx
    have hpos := byteLength_pos hu
    rw [Text.byteLength_append]
    rcases List.mem_cons.mp hx with rfl | hx
    · simp only [Span.over]
      omega
    · have hbounds := ih x hx
      omega

theorem Weaves.head? {c : Char} (h : Weaves o t nested cells)
    (hhead : cells.head? = some (.own c)) : t.head? = some c := by
  cases h with
  | nil => cases hhead
  | char _ =>
    cases hhead
    rfl
  | nested _ _ => cases hhead

end Weaves

namespace NestedIndex

/-- What segments of a template are made of: the template itself, cells with nothing but the text of
the template between gaps, and nested elements. -/
structure Taken (template : List Char) (start stop : Nat) (segments : List Segment)
    (nested : List NestedElement) (cells : List SourceCell) : Prop where
  alternate : Alternate template segments
  own : (segments.flatMap Segment.cells).map Cell.own? = cells.map Cell.own?
  nested : Segment.nestedOfAll segments = nested
  laid : Laid template start segments stop

theorem unplacedAll_gap (front r back : List Char) :
    Segment.unplacedAll (gap (front ++ r ++ back) (byteLength front) (byteLength (front ++ r))) =
      Segment.ofRun r := by
  rw [gap_eq, Segment.ofRun]
  split <;> rfl

/-- The segments of a text with nested elements, after a run of plain text. -/
theorem takeFrom_of_weaves (h : Weaves o t nested cells) (front r back : List Char) {span : Span}
    (ho : o = byteLength (front ++ r)) (hstart : span.start ≤ byteLength front)
    (hstop : span.stop = o + byteLength t) :
    ∃ segments, takeFrom (front ++ r ++ (t ++ back)) span (byteLength front) nested = (segments, []) ∧
      Taken (front ++ r ++ (t ++ back)) (byteLength front) span.stop segments nested
        (r.map .own ++ cells) ∧
      Segment.unplacedAll segments = Segment.ofCells r cells := by
  -- a character makes the run `r` longer, an element ends it
  induction h generalizing front r with
  | @nil o =>
    rw [Text.byteLength_nil, Nat.add_zero, ho] at hstop
    refine ⟨_, rfl, ?_, by rw [hstop]; exact unplacedAll_gap front r ([] ++ back)⟩
    rw [hstop, gap_eq]
    by_cases hr : r = []
    · subst hr
      rw [if_pos rfl, List.append_nil front]
      exact ⟨.nil, rfl, rfl, .nil⟩
    · rw [if_neg hr, Text.byteLength_append]
      exact ⟨.run ⟨front, [] ++ back, rfl⟩, by simp [Segment.cells, Cell.own?], rfl,
        .cons ⟨front, [] ++ back, rfl, rfl⟩ .nil⟩
  | @char o c t nested cells _ ih =>
    have hassoc : front ++ r ++ (c :: t ++ back) = front ++ (r ++ [c]) ++ (t ++ back) := by simp
    have hcells : r.map .own ++ .own c :: cells = (r ++ [c]).map .own ++ cells := by simp
    rw [hassoc, hcells]
    exact ih front (r ++ [c]) (by rw [ho]; simp [Nat.add_assoc]) hstart
      (by rw [hstop, Text.byteLength_cons, Nat.add_assoc])
  | @nested o u t e nested cells hu _ ih =>
    have hpos := byteLength_pos hu
    rw [Text.byteLength_append] at hstop
    have hassoc : front ++ r ++ (u ++ t ++ back) = front ++ r ++ u ++ [] ++ (t ++ back) := by simp
    have hnext : byteLength (front ++ r ++ u) = o + byteLength u := by
      rw [Text.byteLength_append, ← ho]
    obtain ⟨segments, hsegments, htaken, hcells⟩ := ih (front ++ r ++ u) []
      (by rw [List.append_nil, hnext])
      (by rw [hnext]; simp only [Text.byteLength_append] at ho; omega) (by omega)
    rw [← hassoc] at hsegments htaken
    rw [hnext] at htaken
    have hinside : (byteLength front ≤ (Span.over o u).start &&
        span.containsOffset (Span.over o u).start && (Span.over o u).stop ≤ span.stop) = true := by
      simp only [Text.byteLength_append] at ho
      simp only [Bool.and_eq_true, Span.containsOffset_iff, decide_eq_true_eq]
      simp only [Span.over]
      omega
    have hat : IsAt (front ++ r ++ (u ++ t ++ back)) u o := ⟨front ++ r, t ++ back, by simp, ho.symm⟩
    have hslice : (Span.over o u).slice (front ++ r ++ (u ++ t ++ back)) = u := by
      have hslice := Span.slice_over (front ++ r) u (t ++ back)
      rw [← ho] at hslice
      simpa using hslice
    have hgap := gap_eq front r (u ++ t ++ back)
    have hplain := unplacedAll_gap front r (u ++ t ++ back)
    rw [← ho] at hgap hplain
    refine ⟨_, by rw [takeFrom, if_pos hinside, Span.over, ← hnext, hsegments], ?_, ?_⟩
    · rw [hnext, ← Span.over, hslice, show (Span.over o u).start = o from rfl, hgap]
      have hfirst := congrArg (List.cons (⟨.over o u, e⟩ : NestedElement)) htaken.nested
      have hown := htaken.own
      -- an empty run has no segment of its own
      by_cases hr : r = []
      · subst hr
        rw [List.append_nil] at ho
        rw [if_pos rfl, ← ho]
        exact ⟨.nested htaken.alternate, by simp [Segment.cells, Cell.own?, hown], hfirst,
          .cons hat htaken.laid⟩
      · rw [if_neg hr]
        refine ⟨.runNested ⟨front, u ++ t ++ back, rfl⟩ htaken.alternate,
          by simp [Segment.cells, Cell.own?, hown], hfirst, .cons ⟨front, u ++ t ++ back, rfl, rfl⟩ ?_⟩
        rw [← Text.byteLength_append, ← ho]
        exact .cons hat htaken.laid
    · rw [hnext, ← Span.over, hslice, Segment.unplacedAll_append, Segment.unplacedAll, hcells,
        Segment.ofCells]
      exact congrArg (· ++ _) hplain

/-- An expression takes the elements that were recorded for its text and leaves all others. Its cells
are what the text and these elements make up. -/
theorem take_of_weaves {template front back : List Char} {index : NestedIndex}
    (htext : template = front ++ t ++ back) (h : Weaves (byteLength front) t nested cells)
    (hindex : ∀ x ∈ index, x.span.start < byteLength front) :
    ∃ segments, take template (.over (byteLength front) t) (index ++ nested) = (segments, index) ∧
      segments ≠ [] ∧
      Taken template (byteLength front) (byteLength front + byteLength t) segments nested cells ∧
      EmbeddedExpr.unplaced ⟨.over (byteLength front) t, segments⟩ = .ofCells cells := by
  subst htext
  let span := Span.over (byteLength front) t
  obtain ⟨segments, hsegments, htaken, hplain⟩ : ∃ segments, _ ∧ _ ∧ _ :=
    takeFrom_of_weaves h front [] back (by simp) (Nat.le_refl span.start) rfl
  rw [List.append_nil, ← List.append_assoc] at hsegments htaken
  have hall : takeFrom (front ++ t ++ back) span (byteLength front) (index ++ nested) = _ :=
    takeFrom_append hindex
  rw [hsegments, List.append_nil] at hall
  rw [EmbeddedExpr.ofCells, ← hplain]
  cases segments with
  | cons first rest =>
    refine ⟨first :: rest, ?_, List.cons_ne_nil _ _, htaken, ?_⟩
    · unfold take
      rw [show takeFrom _ _ span.start _ = _ from hall]
    · obtain ⟨text, place, _ | e⟩ := first <;> rfl
  | nil =>
    -- an empty expression has one empty run
    obtain rfl : cells = [] := by simpa using htaken.own.symm
    cases h
    have hslice : span.slice (front ++ [] ++ back) = [] := Span.slice_over front [] back
    refine ⟨[.raw (front ++ [] ++ back) span], ?_, List.cons_ne_nil _ _, ?_, ?_⟩
    · unfold take
      rw [show takeFrom _ _ span.start _ = _ from hall]
    · rw [Segment.raw, hslice]
      exact ⟨.run List.nil_infix, rfl, rfl, .cons ⟨front, back, rfl, rfl⟩ .nil⟩
    · rw [Segment.raw, hslice]
      rfl

end NestedIndex

end ComponentMarkup
