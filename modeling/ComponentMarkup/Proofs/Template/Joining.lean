import ComponentMarkup.Proofs.Template.Numbers

/-!
# Segments with names for their gaps

The text that is read for an expression is said in terms of its segments: they are joined, with a name
in parentheses for each nested element, then dedented, and the items of a list get brackets. The
pieces of an expression are read as this text. It does not matter that the pieces are dedented one by
one, because a name has no blanks that could be cut out of it.
-/

namespace ComponentMarkup

open Text (byteLength isBlank)

/-- Brackets around the items of a list, and nothing around a single expression. -/
def FragmentKind.enclose {α : Type} (kind : FragmentKind) (opening closing items : List α) : List α :=
  match kind with
  | .scalar => items
  | .list => opening ++ items ++ closing

/-- Segments one after another, each run of plain text and each gap written in its own way. Every gap
takes the next name. -/
def Segment.spell {α : Type} (run : List Char → Span → List α) (gap : String → List α) :
    List Segment → List String → List α
  | [], _ => []
  | ⟨text, span, none⟩ :: rest, names => run text span ++ spell run gap rest names
  | ⟨_, _, some _⟩ :: rest, name :: names => gap name ++ spell run gap rest names
  | ⟨_, _, some _⟩ :: rest, [] => spell run gap rest []

/-- The text of segments, with a name in parentheses for each nested element. -/
def Segment.joined (segments : List Segment) (names : List String) : List Char :=
  spell (fun text _ => text) (fun name => Cell.text (.gap name)) segments names

namespace Lowering

variable {segments : List Segment} {pieces : List Piece}

/-- What is written piece by piece is written segment by segment, with the placeholders as names. -/
theorem flatMap_eq_spell {α : Type} (h : List.Forall₂ PieceOf segments pieces)
    {f : Piece → List α} {run : List Char → Span → List α} {gap : String → List α}
    (hrun : ∀ text span, f (.copy text span.start) = run text span)
    (hgap : ∀ name span filling, f (.gap name span filling) = gap name) :
    pieces.flatMap f = Segment.spell run gap segments (gapNames pieces) := by
  induction h with
  | nil => rfl
  | cons hpiece _ ih =>
    rw [List.flatMap_cons, ih]
    cases hpiece with
    | copy text span => rw [hrun]; rfl
    | gap text span e name filling => rw [hgap]; rfl

theorem flatMap_text_eq_joined (h : List.Forall₂ PieceOf segments pieces) :
    pieces.flatMap Piece.text = Segment.joined segments (gapNames pieces) :=
  flatMap_eq_spell h (fun _ _ => rfl) fun _ _ _ => rfl

theorem length_gapNames (h : List.Forall₂ PieceOf segments pieces) :
    (gapNames pieces).length = (Segment.nestedOfAll segments).length := by
  induction h with
  | nil => rfl
  | cons hpiece _ ih =>
    cases hpiece with
    | copy text span => exact ih
    | gap text span e name filling => exact congrArg (· + 1) ih

end Lowering

/-! ## Names are not cut -/

theorem Lexer.isBlank_of_isNamePart {c : Char} (h : Lexer.isNamePart c = true) :
    isBlank c = false := by
  apply isBlank_of_isNameChar
  rw [Lexer.isNamePart, Bool.or_eq_true, decide_eq_true_eq] at h
  rw [Cursor.isNameChar]
  obtain h | rfl := h
  · simp [h]
  · rfl

theorem Lexer.IsName.isBlank {name : String} (h : Lexer.IsName name) :
    ∀ c ∈ name.toList, isBlank c = false :=
  fun c hc => Lexer.isBlank_of_isNamePart (h.isNamePart c hc)

namespace Dedent

variable {text front t back : List Char} {i : Nat}

/-- No cut reaches into a part of a text that has no blanks. -/
theorem IsCut.containsOffset_eq_false {cut : Span} (hcut : IsCut text cut)
    (htext : text = front ++ t ++ back) (hsolid : ∀ c ∈ t, isBlank c = false)
    (hstart : byteLength front ≤ i) (hstop : i < byteLength front + byteLength t) :
    cut.containsOffset i = false := by
  rw [← Bool.not_eq_true]
  intro hcovers
  rw [Span.containsOffset_iff] at hcovers
  obtain ⟨u, w, x, rfl, hu, hw⟩ := exists_split_of_cut htext hcut (by omega)
    (by rw [Text.byteLength_append]; omega)
  rw [Text.byteLength_append front] at hw
  -- something is cut out, and its first character would be a blank
  cases w with
  | nil =>
    rw [Text.byteLength_nil] at hw
    omega
  | cons c w =>
    have hpos := c.utf8Size_pos
    rw [Text.byteLength_cons] at hw
    have hwhole : text = (front ++ u) ++ c :: (w ++ x ++ back) := by
      rw [htext]
      simp
    have hblank := hcut.isBlank_of_containsOffset hwhole (by
      rw [Text.byteLength_append]
      rw [Span.containsOffset_iff]
      omega)
    rw [hsolid c (by simp)] at hblank
    cases hblank

theorem any_containsOffset_eq_false {cuts : List Span} (hcuts : ∀ cut ∈ cuts, IsCut text cut)
    (htext : text = front ++ t ++ back) (hsolid : ∀ c ∈ t, isBlank c = false)
    (hstart : byteLength front ≤ i) (hstop : i < byteLength front + byteLength t) :
    cuts.any (·.containsOffset i) = false := by
  rw [List.any_eq_false]
  intro cut hcut
  rw [(hcuts cut hcut).containsOffset_eq_false htext hsolid hstart hstop]
  exact Bool.false_ne_true

theorem apply_eq_uncut (text : List Char) : apply text = uncut (cuts text) 0 text := by
  obtain ⟨horder, hcuts⟩ := cuts_spec text
  have hcopy := Lowering.text_spliceCopy horder hcuts (show text = [] ++ text ++ [] by simp) 0 .empty
  unfold Lowering.spliceCopy at hcopy
  rw [Lowering.text_foldl_pushCopy] at hcopy
  simpa [apply] using hcopy

end Dedent

/-- The names of gaps have no blanks. -/
def SolidGaps (cells : List (Cell Char String)) : Prop :=
  ∀ name, .gap name ∈ cells → ∀ c ∈ name.toList, isBlank c = false

theorem isBlank_of_mem_gap {name : String} (h : ∀ c ∈ name.toList, isBlank c = false) :
    ∀ c ∈ Cell.text (.gap name), isBlank c = false := by
  intro c hc
  simp only [Cell.text, List.cons_append, List.mem_cons, List.mem_append, List.not_mem_nil,
    or_false] at hc
  obtain rfl | hc | rfl := hc
  · decide
  · exact h c hc
  · decide

/-- Cutting cells and cutting their text is the same. -/
theorem cellsText_uncutCells {text : List Char} {cuts : List Span}
    (hcuts : ∀ cut ∈ cuts, Dedent.IsCut text cut) (front : List Char)
    {cells : List (Cell Char String)} (htext : text = front ++ cellsText cells)
    (hsolid : SolidGaps cells) :
    cellsText (uncutCells cuts (byteLength front) cells) =
      Dedent.uncut cuts (byteLength front) (cellsText cells) := by
  induction cells generalizing front with
  | nil => rfl
  | cons cell rest ih =>
    have hrest : SolidGaps rest := fun name hname => hsolid name (List.mem_cons_of_mem _ hname)
    have htext' : text = front ++ cell.text ++ cellsText rest := by
      rw [htext, cellsText_cons, List.append_assoc]
    have ih := ih (front ++ cell.text) htext' hrest
    rw [Text.byteLength_append] at ih
    rw [cellsText_cons, Dedent.uncut_eq_remaining, Dedent.remaining_append, Dedent.sum_utf8Size,
      ← Dedent.uncut_eq_remaining, ← Dedent.uncut_eq_remaining, ← ih]
    cases cell with
    | own c =>
      have hsize : byteLength (Cell.text (.own c)) = c.utf8Size := rfl
      rw [uncutCells, hsize, Cell.text, Dedent.uncut, Dedent.uncut]
      split <;> rfl
    | gap name =>
      have hname := isBlank_of_mem_gap (hsolid name List.mem_cons_self)
      rw [uncutCells, cellsText_cons, Dedent.uncut_eq_remaining,
        Dedent.remaining_of_free Char.utf8Size_pos fun i hle hlt =>
          Dedent.any_containsOffset_eq_false hcuts htext' hname hle (by rwa [Dedent.sum_utf8Size] at hlt)]

namespace Lowering

variable {segments : List Segment} {pieces : List Piece}

/-- The text that is read for an expression, from its segments and its placeholders. -/
theorem text_spliceExpr_eq_joined (kind : FragmentKind)
    (haligned : List.Forall₂ PieceOf segments pieces)
    (hsolid : ∀ name ∈ gapNames pieces, ∀ c ∈ name.toList, isBlank c = false) :
    (spliceExpr kind pieces).text =
      kind.enclose ['['] [']'] (Dedent.apply (Segment.joined segments (gapNames pieces))) := by
  have hcuts := (Dedent.cuts_spec (pieces.flatMap Piece.text)).2
  have hcells := cellsText_uncutCells hcuts [] (cellsText_pieces pieces).symm
    fun name hname => hsolid name (mem_gapNames.mpr hname)
  rw [Text.byteLength_nil, cellsText_pieces, ← Dedent.apply_eq_uncut, ← readCells,
    flatMap_text_eq_joined haligned] at hcells
  rw [text_spliceExpr, hcells]
  cases kind <;> rfl

theorem PiecesFrom.isName {template : List Char} {vocabulary : Vocabulary} {n n' : Nat}
    (h : PiecesFrom (contextFor template vocabulary) segments n n' pieces) :
    ∀ name ∈ gapNames pieces, Lexer.IsName name := by
  intro name hname
  obtain ⟨ks, hnames, -, -⟩ := h.numbers
  rw [hnames] at hname
  obtain ⟨k, -, rfl⟩ := List.mem_map.mp hname
  obtain ⟨m, hstem, -, -⟩ := stemFor_spec template
  rw [contextFor, hstem]
  exact isName_numbered m k

end Lowering

end ComponentMarkup
