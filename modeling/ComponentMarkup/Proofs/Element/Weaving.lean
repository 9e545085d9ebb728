import ComponentMarkup.Element.Nested
import ComponentMarkup.Proofs.Markup.Grammar

/-!
# Texts with gaps

The source of an expression is text of the template in which each nested element leaves a gap. Such a
text is a list of cells. `Balanced` says that its brackets match outside of string literals, which
hold no gaps. `Alternate` and `Laid` say how segments follow each other in the template.
-/

namespace ComponentMarkup

open Text (byteLength)

/-- A place of a text: an item of its own, or a gap that stands for something else. -/
inductive Cell (β α : Type) where
  | own (item : β)
  | gap (filler : α)

/-- The item of a cell that is no gap. -/
def Cell.own? {β α : Type} : Cell β α → Option β
  | .own item => some item
  | .gap _ => none

/-! ## Balanced texts -/

section Balanced

variable {α : Type}

/-- The cells do not begin with a quote. -/
def NoQuoteAhead (cells : List (Cell Char α)) : Prop :=
  ∀ quote, [quote] ∈ stringQuotes → cells.head? ≠ some (.own quote)

/-- Two quotes in front of the cells make a literal of their own. -/
def EndsBeforeCells (t : List Char) (cells : List (Cell Char α)) : Prop :=
  ∀ quote, [quote] ∈ stringQuotes → t = [quote, quote] → cells.head? ≠ some (.own quote)

/-- Every bracket has its counterpart. Brackets in string literals do not count. -/
inductive Balanced : List (Cell Char α) → Prop where
  | nil : Balanced []
  | plain {c rest} : Reader.isMark c = false → Balanced rest → Balanced (.own c :: rest)
  | string {t rest} : IsStringLiteral t → EndsBeforeCells t rest → Balanced rest →
      Balanced (t.map .own ++ rest)
  | gap {a rest} : Balanced rest → Balanced (.gap a :: rest)
  | group {rule opening closing inner rest} : (rule, opening, closing) ∈ groups →
      Balanced inner → Balanced rest → Balanced (.own opening :: inner ++ .own closing :: rest)

theorem head?_append_ne {cells more : List (Cell Char α)} {cell : Cell Char α}
    (h : cells.head? ≠ some cell) (hmore : more.head? ≠ some cell) :
    (cells ++ more).head? ≠ some cell := by
  cases cells with
  | nil => exact hmore
  | cons first rest => exact h

theorem Balanced.append {cells more : List (Cell Char α)} (h : Balanced cells)
    (hmore : Balanced more) (hahead : NoQuoteAhead more) : Balanced (cells ++ more) := by
  induction h with
  | nil => exact hmore
  | plain hc _ ih => exact .plain hc ih
  | @string t rest ht hends _ ih =>
    rw [List.append_assoc]
    refine .string ht ?_ ih
    intro quote hquote htwo
    exact head?_append_ne (hends quote hquote htwo) (hahead quote hquote)
  | gap _ ih => exact .gap ih
  | @group rule opening closing inner rest hgroup hinner _ _ ih =>
    have hassoc : (.own opening :: inner ++ .own closing :: rest) ++ more =
        .own opening :: inner ++ .own closing :: (rest ++ more) := by simp
    rw [hassoc]
    exact .group hgroup hinner ih

/-- Plain text in front. -/
theorem Balanced.plainText {t : List Char} {rest : List (Cell Char α)}
    (ht : ∀ c ∈ t, Reader.isMark c = false) (h : Balanced rest) :
    Balanced (t.map .own ++ rest) := by
  induction t with
  | nil => exact h
  | cons c t ih =>
    refine .plain (ht c List.mem_cons_self) (ih ?_)
    intro x hx
    exact ht x (List.mem_cons_of_mem c hx)

theorem own?_map_own (t : List Char) :
    (t.map (Cell.own : Char → Cell Char α)).map Cell.own? = t.map some := by
  simp [Cell.own?]

theorem eq_map_own_of_own? {β : Type} {t : List β} {cells : List (Cell β α)}
    (h : cells.map Cell.own? = t.map some) : cells = t.map .own := by
  induction t generalizing cells with
  | nil => exact List.map_eq_nil_iff.mp h
  | cons c t ih =>
    obtain ⟨cell, rest, rfl, hcell, hrest⟩ := List.map_eq_cons_iff.mp h
    rw [List.map_cons, ih hrest]
    cases cell with
    | own item =>
      cases hcell
      rfl
    | gap filler => cases hcell

theorem head?_ne_of_own? {α' : Type} {cells : List (Cell Char α)} {cells' : List (Cell Char α')}
    {c : Char} (h : cells'.map Cell.own? = cells.map Cell.own?)
    (hcells : cells.head? ≠ some (.own c)) : cells'.head? ≠ some (.own c) := by
  intro hhead
  obtain ⟨rest', rfl⟩ := List.head?_eq_some_iff.mp hhead
  obtain ⟨cell, rest, rfl, hcell, _⟩ := List.map_eq_cons_iff.mp h.symm
  cases cell with
  | own item =>
    cases hcell
    exact hcells rfl
  | gap filler => cases hcell

theorem Balanced.of_own? {α' : Type} {cells : List (Cell Char α)} {cells' : List (Cell Char α')}
    (hcells : Balanced cells) (h : cells'.map Cell.own? = cells.map Cell.own?) :
    Balanced cells' := by
  induction hcells generalizing cells' with
  | nil =>
    rw [List.map_eq_nil_iff.mp h]
    exact .nil
  | plain hc _ ih =>
    obtain ⟨cell, rest, rfl, hcell, hrest⟩ := List.map_eq_cons_iff.mp h
    cases cell with
    | own item =>
      cases hcell
      exact .plain hc (ih hrest)
    | gap filler => cases hcell
  | string ht hends _ ih =>
    rw [List.map_append, own?_map_own] at h
    obtain ⟨front, rest, rfl, hfront, hrest⟩ := List.map_eq_append_iff.mp h
    rw [eq_map_own_of_own? hfront]
    refine .string ht ?_ (ih hrest)
    intro quote hquote htwo
    exact head?_ne_of_own? hrest (hends quote hquote htwo)
  | gap _ ih =>
    obtain ⟨cell, rest, rfl, hcell, hrest⟩ := List.map_eq_cons_iff.mp h
    cases cell with
    | own item => cases hcell
    | gap filler => exact .gap (ih hrest)
  | group hgroup _ _ ih₁ ih₂ =>
    rw [List.map_append, List.map_cons] at h
    obtain ⟨front, back, rfl, hfront, hback⟩ := List.map_eq_append_iff.mp h
    obtain ⟨first, inner, rfl, hfirst, hinner⟩ := List.map_eq_cons_iff.mp hfront
    obtain ⟨last, rest, rfl, hlast, hrest⟩ := List.map_eq_cons_iff.mp hback
    cases first with
    | gap filler => cases hfirst
    | own item =>
      cases last with
      | gap filler => cases hlast
      | own item' =>
        cases hfirst
        cases hlast
        exact .group hgroup (ih₁ hinner) (ih₂ hrest)

end Balanced

/-! ## Segments -/

theorem byteLength_pos {t : List Char} (h : t ≠ []) : 0 < byteLength t := by
  cases t with
  | nil => exact absurd rfl h
  | cons c t =>
    have hpos := c.utf8Size_pos
    rw [Text.byteLength_cons]
    omega

/-- The cells of a segment. -/
def Segment.cells (s : Segment) : List (Cell Char Element) :=
  match s.element with
  | none => s.text.map .own
  | some e => [.gap e]

/-- The cells of the source of an expression. -/
def EmbeddedExpr.cells (source : EmbeddedExpr) : List (Cell Char Element) :=
  source.segments.flatMap Segment.cells

/-- The elements of segments, with the spans they take. -/
def Segment.nestedOfAll (segments : List Segment) : List NestedElement :=
  segments.filterMap fun s => s.element.map (⟨s.span, ·⟩)

/-- Segments of a template in which no two runs of plain text follow each other. -/
inductive Alternate (template : List Char) : List Segment → Prop where
  | nil : Alternate template []
  | run {t span} : t <:+: template → Alternate template [⟨t, span, none⟩]
  | nested {t span e rest} : Alternate template rest → Alternate template (⟨t, span, some e⟩ :: rest)
  | runNested {r rspan t span e rest} : r <:+: template → Alternate template rest →
      Alternate template (⟨r, rspan, none⟩ :: ⟨t, span, some e⟩ :: rest)

/-- Segments follow each other in a template, from an offset up to another one, each with the text
that stands there. -/
inductive Laid (template : List Char) : Nat → List Segment → Nat → Prop where
  | nil {o} : Laid template o [] o
  | cons {o t element rest stop} : IsAt template t o → Laid template (o + byteLength t) rest stop →
      Laid template o (⟨t, .over o t, element⟩ :: rest) stop

theorem IsAt.slice {template t : List Char} {o : Nat} (h : IsAt template t o) :
    Span.slice ⟨o, o + byteLength t⟩ template = t := by
  rw [Span.slice, h.slice?]
  rfl

/-- The text under the span of a part of a text is that part. -/
theorem Span.slice_over (front t back : List Char) :
    (Span.over (byteLength front) t).slice (front ++ t ++ back) = t :=
  IsAt.slice ⟨front, back, rfl, rfl⟩

namespace NestedIndex

/-- The run between two offsets is the text between them, if there is any. -/
theorem gap_eq (front r back : List Char) :
    gap (front ++ r ++ back) (byteLength front) (byteLength (front ++ r)) =
      if r = [] then [] else [⟨r, .over (byteLength front) r, none⟩] := by
  rw [Text.byteLength_append, gap]
  by_cases hr : r = []
  · simp [hr]
  · have hpos := byteLength_pos hr
    rw [if_pos (by omega), if_neg hr, Segment.raw]
    have hslice := Span.slice_over front r back
    rw [Span.over] at hslice ⊢
    rw [hslice]

theorem takeFrom_append {source : List Char} {span : Span} {offset : Nat}
    {before index : NestedIndex} (h : ∀ x ∈ before, x.span.start < offset) :
    takeFrom source span offset (before ++ index) =
      ((takeFrom source span offset index).1, before ++ (takeFrom source span offset index).2) := by
  induction before with
  | nil => rfl
  | cons first rest ih =>
    have hfirst := h first List.mem_cons_self
    have hrest := ih fun x hx => h x (List.mem_cons_of_mem first hx)
    have hleft : ¬ (offset ≤ first.span.start && span.containsOffset first.span.start &&
        first.span.stop ≤ span.stop) = true := by
      simp only [Bool.and_eq_true, decide_eq_true_eq]
      omega
    rw [List.cons_append, takeFrom, if_neg hleft, hrest]
    rfl

theorem record_of_lt {nested : NestedElement} {index : NestedIndex}
    (h : ∀ x ∈ index, x.span.start < nested.span.start) :
    record nested index = index ++ [nested] := by
  induction index with
  | nil => rfl
  | cons first rest ih =>
    have hfirst := h first List.mem_cons_self
    rw [record, if_pos hfirst, ih fun x hx => h x (List.mem_cons_of_mem first hx)]
    rfl

end NestedIndex

end ComponentMarkup
