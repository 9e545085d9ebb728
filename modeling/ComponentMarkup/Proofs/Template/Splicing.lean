import ComponentMarkup.Proofs.Template.Cutting
import ComponentMarkup.Proofs.Template.Dedenting
import ComponentMarkup.Template.Lowering

/-!
# The text that is read for an expression

The pieces of an expression are cells: the characters of copied text, and a gap for each placeholder.
`readCells` gives the cells that are left after dedenting, with brackets around them for a list. The
text that is read is theirs, each placeholder written between parentheses. What dedenting takes away
are blanks at the starts of lines, since a cut begins at the start of a line and covers blanks only.
-/

namespace ComponentMarkup

open Text (byteLength eq_nil_of_byteLength_zero exists_append_of_byteLength_le)

variable {back front : List Char}

/-! ## Cells as text -/

/-- What is read for a cell: the character, or the placeholder in parentheses. -/
def Cell.text : Cell Char String → List Char
  | .own c => [c]
  | .gap name => '(' :: name.toList ++ [')']

/-- What is read for cells. -/
def cellsText (cells : List (Cell Char String)) : List Char :=
  cells.flatMap Cell.text

@[simp]
theorem cellsText_nil : cellsText [] = [] := rfl

@[simp]
theorem cellsText_cons (cell : Cell Char String) (rest : List (Cell Char String)) :
    cellsText (cell :: rest) = cell.text ++ cellsText rest := rfl

@[simp]
theorem cellsText_append (cells more : List (Cell Char String)) :
    cellsText (cells ++ more) = cellsText cells ++ cellsText more :=
  List.flatMap_append

@[simp]
theorem cellsText_own (t : List Char) : cellsText (t.map .own) = t := by
  induction t with
  | nil => rfl
  | cons c t ih => rw [List.map_cons, cellsText_cons, ih]; rfl

namespace Lowering

/-- The cells of a piece. -/
def Piece.cells : Piece → List (Cell Char String)
  | .copy text _ => text.map .own
  | .gap name _ _ => [.gap name]

theorem Piece.cellsText_cells (piece : Piece) : cellsText piece.cells = piece.text := by
  cases piece with
  | copy text start => exact cellsText_own text
  | gap name span filling => simp [Piece.cells, Piece.text, Cell.text]

theorem cellsText_pieces (pieces : List Piece) :
    cellsText (pieces.flatMap Piece.cells) = pieces.flatMap Piece.text := by
  induction pieces with
  | nil => rfl
  | cons piece rest ih =>
    rw [List.flatMap_cons, List.flatMap_cons, cellsText_append, Piece.cellsText_cells, ih]

end Lowering

/-! ## Cells without the cuts -/

/-- The cells that no cut covers. The text of the first one stands at an offset. -/
def uncutCells (cuts : List Span) (o : Nat) : List (Cell Char String) → List (Cell Char String)
  | [] => []
  | .own c :: rest =>
    if cuts.any (·.containsOffset o) then uncutCells cuts (o + c.utf8Size) rest
    else .own c :: uncutCells cuts (o + c.utf8Size) rest
  | .gap name :: rest =>
    .gap name :: uncutCells cuts (o + byteLength (Cell.text (.gap name))) rest

theorem uncutCells_own_append (cuts : List Span) (o : Nat) (t : List Char)
    (rest : List (Cell Char String)) :
    uncutCells cuts o (t.map .own ++ rest) =
      (Dedent.uncut cuts o t).map .own ++ uncutCells cuts (o + byteLength t) rest := by
  induction t generalizing o with
  | nil => rfl
  | cons c t ih =>
    rw [List.map_cons, List.cons_append, uncutCells, Dedent.uncut, ih, Text.byteLength_cons,
      Nat.add_assoc]
    split <;> rfl

theorem uncutCells_eq_remaining (cuts : List Span) (o : Nat) (cells : List (Cell Char String)) :
    uncutCells cuts o cells =
      Dedent.remaining (fun cell => byteLength cell.text) (·.own?.isNone) cuts o cells := by
  induction cells generalizing o with
  | nil => rfl
  | cons cell cells ih =>
    cases cell with
    | own c => rw [uncutCells, Dedent.remaining, ih]; rfl
    | gap name => rw [uncutCells, Dedent.remaining, ih]; rfl

theorem sum_cells (cells : List (Cell Char String)) :
    (cells.map fun cell => byteLength cell.text).sum = byteLength (cellsText cells) := by
  induction cells with
  | nil => rfl
  | cons cell cells ih => rw [List.map_cons, List.sum_cons, ih, cellsText_cons, Text.byteLength_append]

theorem Cell.byteLength_text_pos (cell : Cell Char String) : 0 < byteLength cell.text := by
  cases cell with
  | own c => exact Nat.add_pos_left c.utf8Size_pos _
  | gap name => exact Nat.add_pos_left (Char.utf8Size_pos '(') _

namespace Dedent

/-- A cut covers blanks only. -/
theorem IsCut.isBlank_of_containsOffset {c : Char} {cut : Span} (hcut : IsCut text cut)
    (htext : text = front ++ c :: back) (hc : cut.containsOffset (byteLength front) = true) :
    Text.isBlank c = true := by
  obtain ⟨before, blanks, after, hwhole, rfl, hblanks, -⟩ := hcut
  rw [Span.containsOffset_iff] at hc
  simp only [Span.over] at hc
  rw [htext, List.append_assoc] at hwhole
  obtain ⟨mid, rfl, hmid⟩ := exists_append_of_byteLength_le hwhole.symm hc.1
  rw [Text.byteLength_append] at hc
  obtain ⟨rest, rfl, -⟩ := exists_append_of_byteLength_le hmid.symm (by omega)
  cases rest with
  | nil =>
    rw [List.append_nil] at hc
    omega
  | cons d rest =>
    rw [List.append_assoc, List.append_cancel_left_eq] at hmid
    obtain ⟨rfl, -⟩ := List.cons.inj hmid
    exact hblanks d (by simp)

/-- A cut that does not cover a character and goes on after it starts there, at the start of a
line. -/
theorem IsCut.eq_newline {c : Char} {cut : Span} (hcut : IsCut text cut)
    (htext : text = front ++ c :: back) (hc : cut.containsOffset (byteLength front) = false)
    (hnext : cut.containsOffset (byteLength (front ++ [c])) = true) : c = '\n' := by
  have hpos := c.utf8Size_pos
  obtain ⟨before, blanks, after, hwhole, rfl, -, hline⟩ := hcut
  rw [Span.containsOffset_eq_false_iff] at hc
  rw [Span.containsOffset_iff] at hnext
  simp only [Span.over, Text.byteLength_append, Text.byteLength_cons, Text.byteLength_nil] at hc hnext
  -- the cut starts after the character's own start, and no later than its end
  rw [htext, List.append_assoc] at hwhole
  obtain ⟨mid, rfl, hmid⟩ := exists_append_of_byteLength_le hwhole (by omega)
  cases mid with
  | nil =>
    rw [List.append_nil] at hc
    omega
  | cons d mid =>
    obtain ⟨rfl, -⟩ := List.cons.inj hmid
    simp only [Text.byteLength_append, Text.byteLength_cons] at hnext
    obtain rfl := eq_nil_of_byteLength_zero (t := mid) (by omega)
    simpa using hline

end Dedent

/-- Cutting takes away blanks at the starts of lines. -/
theorem dedents_uncutCells (hcuts : ∀ cut ∈ cuts, Dedent.IsCut text cut) (front : List Char)
    {cells : List (Cell Char String)} (htext : text = front ++ cellsText cells) {b : Bool}
    (hline : cuts.any (·.containsOffset (byteLength front)) = true → b = true) :
    ∃ b', Dedents b cells (uncutCells cuts (byteLength front) cells) b' := by
  induction cells generalizing front b with
  | nil => exact ⟨b, .nil⟩
  | cons cell rest ih =>
    cases cell with
    | own c =>
      have htext' : text = front ++ [c] ++ cellsText rest := by
        rw [htext, List.append_assoc]
        rfl
      have hlen : byteLength (front ++ [c]) = byteLength front + c.utf8Size := by
        rw [Text.byteLength_append, Text.byteLength_cons, Text.byteLength_nil, Nat.add_zero]
      rw [uncutCells, ← hlen]
      split
      · rename_i hcovered
        obtain rfl := hline hcovered
        obtain ⟨cut, hcut, hc⟩ := List.any_eq_true.mp hcovered
        have hblank := (hcuts cut hcut).isBlank_of_containsOffset htext hc
        obtain ⟨b', hrest⟩ := ih (front ++ [c]) htext' (b := true) fun _ => rfl
        exact ⟨b', .cut hblank hrest⟩
      · rename_i hopen
        obtain ⟨b', hrest⟩ := ih (front ++ [c]) htext' (b := c == '\n') (by
          intro hnext
          obtain ⟨cut, hcut, hc⟩ := List.any_eq_true.mp hnext
          have hfree : cut.containsOffset (byteLength front) = false :=
            Bool.eq_false_iff.mpr fun h => hopen (List.any_eq_true.mpr ⟨cut, hcut, h⟩)
          rw [(hcuts cut hcut).eq_newline htext hfree hc]
          rfl)
        exact ⟨b', .keep hrest⟩
    | gap name =>
      have hgap : front ++ Cell.text (.gap name) = front ++ '(' :: name.toList ++ [')'] := by
        simp [Cell.text]
      have hlast : text = front ++ '(' :: name.toList ++ ')' :: cellsText rest := by
        rw [htext, cellsText_cons, ← List.append_assoc, hgap]
        simp
      rw [uncutCells, ← Text.byteLength_append, hgap]
      -- the closing parenthesis is neither a blank nor a newline, so no cut reaches past it
      obtain ⟨b', hrest⟩ := ih (front ++ '(' :: name.toList ++ [')']) (b := false)
        (by rw [hlast]; simp) (by
          intro hnext
          obtain ⟨cut, hcut, hc⟩ := List.any_eq_true.mp hnext
          cases hcovered : cut.containsOffset (byteLength (front ++ '(' :: name.toList)) with
          | true => exact absurd ((hcuts cut hcut).isBlank_of_containsOffset hlast hcovered) (by decide)
          | false => exact absurd ((hcuts cut hcut).eq_newline hlast hcovered hc) (by decide))
      exact ⟨b', .gap hrest⟩

/-! ## Spliced pieces -/

namespace Lowering

theorem text_pushCopy (s : Splice) (text : List Char) (o : Nat) :
    (s.pushCopy text o).text = s.text ++ text := by
  cases text with
  | nil => exact (List.append_nil s.text).symm
  | cons c text => rfl

theorem text_foldl_pushCopy {α : Type} (s : Splice) (kept : List α) (part : α → List Char)
    (start : α → Nat) :
    (kept.foldl (fun s k => s.pushCopy (part k) (start k)) s).text = s.text ++ kept.flatMap part := by
  induction kept generalizing s with
  | nil => simp
  | cons k kept ih =>
    rw [List.foldl_cons, ih, text_pushCopy, List.flatMap_cons, List.append_assoc]

section

variable {text : List Char} {cuts : List Span} (horder : Dedent.InOrder cuts)
  (hcuts : ∀ cut ∈ cuts, Dedent.IsCut text cut)

include horder hcuts

/-- A copied text is appended in parts `p.2`, each from where it stands in the text, after `p.1`. If the
text is spelled with items, those of the parts are the items that remain. -/
theorem exists_parts_of_spliceCopy {α : Type} {size : α → Nat} (spell : Nat → List Char → List α)
    (hsize : ∀ x, 0 < size x)
    (happend : ∀ s t u, spell s (t ++ u) = spell s t ++ spell (s + byteLength t) u)
    (hsum : ∀ s t, ((spell s t).map size).sum = byteLength t) {t : List Char}
    (htext : text = front ++ t ++ back) (start : Nat) (s : Splice) :
    ∃ parts : List (List Char × List Char), (∀ p ∈ parts, ∃ x, t = p.1 ++ p.2 ++ x) ∧
      spliceCopy cuts (byteLength front) t start s =
        parts.foldl (fun s p => s.pushCopy p.2 (start + byteLength p.1)) s ∧
      Dedent.remaining size (fun _ => false) cuts (byteLength front) (spell 0 t) =
        parts.flatMap fun p => spell (byteLength p.1) p.2 := by
  obtain ⟨parts, hparts, hkeep, hleft⟩ := Dedent.exists_parts_of_keep spell hsize happend hsum horder
    hcuts [] t (show text = front ++ [] ++ t ++ back by rw [htext, List.append_nil])
  rw [List.append_nil] at hkeep hleft
  refine ⟨parts, hparts, ?_, hleft⟩
  rw [spliceCopy, hkeep, List.foldl_map]
  refine List.foldl_ext _ _ s fun s p hp => ?_
  obtain ⟨x, hx⟩ := hparts p hp
  have hplace : byteLength (front ++ p.1) - byteLength front = byteLength p.1 := by
    rw [Text.byteLength_append, Nat.add_sub_cancel_left]
  have hslice := Dedent.slice_between front p.1 p.2 x
  rw [← hx, List.nil_append, hplace] at hslice
  simp only [hplace, hslice]

theorem text_spliceCopy {t : List Char} (htext : text = front ++ t ++ back) (start : Nat)
    (s : Splice) :
    (spliceCopy cuts (byteLength front) t start s).text =
      s.text ++ Dedent.uncut cuts (byteLength front) t := by
  obtain ⟨parts, -, hcopy, hleft⟩ := exists_parts_of_spliceCopy horder hcuts (fun _ t => t)
    Char.utf8Size_pos (fun _ _ _ => rfl) (fun _ => Dedent.sum_utf8Size) htext start s
  rw [hcopy, text_foldl_pushCopy, Dedent.uncut_eq_remaining, hleft]

theorem text_splicePieces {pieces : List Piece} (front : List Char)
    (htext : text = front ++ pieces.flatMap Piece.text) (s : Splice) :
    (splicePieces cuts (byteLength front) s pieces).text =
      s.text ++ cellsText (uncutCells cuts (byteLength front) (pieces.flatMap Piece.cells)) := by
  induction pieces generalizing front s with
  | nil => simp [splicePieces, uncutCells]
  | cons piece rest ih =>
    rw [List.flatMap_cons, ← List.append_assoc] at htext
    cases piece with
    | copy t start =>
      have htext : text = front ++ t ++ rest.flatMap Piece.text := htext
      rw [splicePieces, ← Text.byteLength_append, ih _ htext, text_spliceCopy horder hcuts htext,
        List.flatMap_cons, Piece.cells, uncutCells_own_append, cellsText_append, cellsText_own,
        Text.byteLength_append, List.append_assoc]
    | gap name span filling =>
      rw [splicePieces, ← Text.byteLength_append, ih _ htext, List.flatMap_cons, Piece.cells,
        List.singleton_append, uncutCells, cellsText_cons, Text.byteLength_append]
      simp [Splice.pushReplacement, Piece.text, Cell.text]

end

/-- The cells that are read for an expression, apart from the brackets of a list. -/
def readCells (pieces : List Piece) : List (Cell Char String) :=
  uncutCells (Dedent.cuts (pieces.flatMap Piece.text)) 0 (pieces.flatMap Piece.cells)

theorem text_spliceExpr (kind : FragmentKind) (pieces : List Piece) :
    (spliceExpr kind pieces).text =
      match kind with
      | .scalar => cellsText (readCells pieces)
      | .list => '[' :: cellsText (readCells pieces) ++ [']'] := by
  obtain ⟨horder, hcuts⟩ := Dedent.cuts_spec (pieces.flatMap Piece.text)
  cases kind with
  | scalar => exact text_splicePieces horder hcuts [] rfl .empty
  | list =>
    have hpieces := text_splicePieces horder hcuts [] rfl (Splice.empty.pushText ['['])
    simp only [spliceExpr, Splice.pushText]
    rw [show byteLength [] = 0 from rfl] at hpieces
    simp only [Splice.pushText] at hpieces
    rw [hpieces]
    rfl

/-- The cells that are read are those of the pieces without blanks at the starts of lines. -/
theorem dedents_readCells (pieces : List Piece) :
    ∃ b, Dedents true (pieces.flatMap Piece.cells) (readCells pieces) b := by
  have hcuts := (Dedent.cuts_spec (pieces.flatMap Piece.text)).2
  exact dedents_uncutCells hcuts [] (cellsText_pieces pieces).symm fun _ => rfl

end Lowering

end ComponentMarkup
