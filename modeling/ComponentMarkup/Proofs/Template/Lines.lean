import ComponentMarkup.Proofs.Expr.Renaming
import ComponentMarkup.Proofs.Template.Splicing

/-!
# Dedenting line by line

`uncutCells_joinLines` says what dedenting leaves of cells, line by line: blank lines at the start are
dropped, and from every other line as many cells as the margin says. Whether a line is blank and how
far it is indented does not depend on the names of its gaps, so cells that differ in these names only
are dedented alike: `uncutCells_renamed`.
-/

namespace ComponentMarkup

open Text (byteLength)

variable {text blank : List (List (Cell Char String))} {cuts : List Span} {o : Nat}
  {cells line : List (Cell Char String)}

/-! ## Lines of texts -/

theorem Text.splitOnto_singleton (c : Char) (pieces : List (List Char)) (piece text : List Char) :
    splitOnto c [] pieces piece text =
      pieces.reverse ++ List.splitOnPPrepend (· == c) text piece := by
  induction text generalizing pieces piece with
  | nil => rw [splitOnto, List.splitOnPPrepend_nil, List.reverse_cons]
  | cons d rest ih =>
    rw [splitOnto, List.splitOnPPrepend_cons_eq_if]
    by_cases hd : d = c
    · subst hd
      rw [if_pos (by simp), if_pos (by simp), List.length_nil, List.drop_zero, ih, List.reverse_cons,
        List.append_assoc]
      rfl
    · rw [if_neg (by simpa using Ne.symm hd), if_neg (by simpa using hd), ih]

theorem Dedent.lines_join {text : List (List Char)} (hne : text ≠ [])
    (hlines : ∀ line ∈ text, '\n' ∉ line) : lines (Text.join ['\n'] text) = text := by
  have hsplit : lines (Text.join ['\n'] text) = (Text.join ['\n'] text).splitOn '\n' :=
    Text.splitOnto_singleton '\n' [] [] _
  rw [hsplit, Text.join, List.splitOn_intercalate '\n' hlines hne]

/-! ## Lines of cells -/

/-- Cells one line after another, with newlines between them. -/
def joinLines (text : List (List (Cell Char String))) : List (Cell Char String) :=
  List.intercalate [.own '\n'] text

/-- The cells behind a line, which are a newline and further lines. -/
def nextLines : List (List (Cell Char String)) → List (Cell Char String)
  | [] => []
  | line :: rest => .own '\n' :: joinLines (line :: rest)

theorem joinLines_cons (line : List (Cell Char String)) (rest : List (List (Cell Char String))) :
    joinLines (line :: rest) = line ++ nextLines rest := by
  cases rest with
  | nil => simp [joinLines, nextLines, List.intercalate]
  | cons next rest => simp [joinLines, nextLines, List.intercalate]

theorem cellsText_joinLines (text : List (List (Cell Char String))) :
    cellsText (joinLines text) = Text.join ['\n'] (text.map cellsText) := by
  induction text with
  | nil => rfl
  | cons line rest ih =>
    rw [joinLines_cons, cellsText_append]
    cases rest with
    | nil => simp [nextLines, Text.join_singleton]
    | cons next rest =>
      rw [nextLines, cellsText_cons, ih, List.map_cons, List.map_cons, List.map_cons,
        Text.join_cons_cons, List.append_assoc]
      rfl

/-! ## Cuts and cells -/

theorem uncutCells_append (cuts : List Span) (o : Nat) (cells more : List (Cell Char String)) :
    uncutCells cuts o (cells ++ more) =
      uncutCells cuts o cells ++ uncutCells cuts (o + byteLength (cellsText cells)) more := by
  simp only [uncutCells_eq_remaining, Dedent.remaining_append, sum_cells]

theorem uncutCells_of_apart
    (h : ∀ cut ∈ cuts, cut.stop ≤ o ∨ o + byteLength (cellsText cells) ≤ cut.start) :
    uncutCells cuts o cells = cells := by
  rw [uncutCells_eq_remaining]
  exact Dedent.remaining_of_apart Cell.byteLength_text_pos (by rwa [sum_cells])

/-- A cut that covers none of the offsets does not matter. -/
theorem uncutCells_cons_of_apart {cut : Span} (h : ∀ i, o ≤ i → i < cut.start ∨ cut.stop ≤ i) :
    uncutCells (cut :: cuts) o cells = uncutCells cuts o cells := by
  rw [uncutCells_eq_remaining, uncutCells_eq_remaining]
  exact Dedent.remaining_cons_of_apart Cell.byteLength_text_pos fun i hle _ => h i hle

/-! ## What dedenting leaves of lines -/

theorem Dedent.indentation_cons (c : Char) (line : List Char) :
    indentation (c :: line) = if c == ' ' || c == '\t' then indentation line + 1 else 0 := by
  rw [indentation, List.takeWhile_cons]
  split <;> rfl

/-- The indentation of a line is made of characters of its own. -/
theorem exists_own_of_indentation {n : Nat} (h : n ≤ Dedent.indentation (cellsText line)) :
    ∃ t : List Char, line = t.map .own ++ line.drop n ∧ byteLength t = n := by
  induction line generalizing n with
  | nil =>
    obtain rfl : n = 0 := Nat.le_zero.mp h
    exact ⟨[], rfl, rfl⟩
  | cons cell line ih =>
    cases n with
    | zero => exact ⟨[], rfl, rfl⟩
    | succ n =>
      cases cell with
      | own c =>
        rw [cellsText_cons, Cell.text, List.singleton_append, Dedent.indentation_cons] at h
        split at h
        · next hc =>
          obtain ⟨t, hline, hlen⟩ := ih (Nat.le_of_succ_le_succ h)
          have hsize := (Dedent.isBlank_of_indent hc).2
          refine ⟨c :: t, by rw [List.map_cons, List.cons_append, List.drop_succ_cons, ← hline], ?_⟩
          rw [Text.byteLength_cons, hlen, hsize, Nat.add_comm]
        · omega
      | gap name =>
        have hzero : Dedent.indentation (cellsText (.gap name :: line)) = 0 := rfl
        omega

theorem exists_own_of_isBlankLine (h : Dedent.isBlankLine (cellsText line) = true) :
    ∃ t : List Char, line = t.map .own := by
  induction line with
  | nil => exact ⟨[], rfl⟩
  | cons cell line ih =>
    cases cell with
    | own c =>
      rw [Dedent.isBlankLine, cellsText_cons, List.all_append, Bool.and_eq_true] at h
      obtain ⟨t, rfl⟩ := ih h.2
      exact ⟨c :: t, rfl⟩
    | gap name => cases h

/-- A line without the part of its indentation that lies in the margin. -/
def dedentLine (margin : Nat) (line : List (Cell Char String)) : List (Cell Char String) :=
  line.drop (min (Dedent.indentation (cellsText line)) margin)

/-- The number of blank lines at the start. -/
def blankLines (text : List (List (Cell Char String))) : Nat :=
  (Dedent.splitBlankLines (text.map cellsText)).1.length

/-- Lines without the blank ones at the start and without the margin. -/
def dedentLines (text : List (List (Cell Char String))) : List (List (Cell Char String)) :=
  let body := text.drop (blankLines text)
  body.map (dedentLine (Dedent.margin (body.map cellsText)))

/-- A cut of nothing may be left out. -/
theorem uncutCells_lineCuts_cons (margin o start : Nat) (line : List Char)
    (rest : List (List Char)) (cells : List (Cell Char String)) :
    uncutCells (Dedent.lineCuts margin o (line :: rest)) start cells =
      uncutCells (⟨o, o + min (Dedent.indentation line) margin⟩ ::
        Dedent.lineCuts margin (o + byteLength line + 1) rest) start cells := by
  rw [Dedent.lineCuts]
  split
  · exact (uncutCells_cons_of_apart fun i _ => by simp only; omega).symm
  · rfl

/-- The cut at the start of a line takes its part of the margin away. -/
theorem uncutCells_line {margin : Nat} {more : List Span}
    (hmore : ∀ cut ∈ more, o + byteLength (cellsText line) ≤ cut.start) :
    uncutCells (⟨o, o + min (Dedent.indentation (cellsText line)) margin⟩ :: more) o line =
      dedentLine margin line := by
  obtain ⟨t, hline, hlen⟩ :=
    exists_own_of_indentation (Nat.min_le_left (Dedent.indentation (cellsText line)) margin)
  rw [dedentLine]
  generalize min (Dedent.indentation (cellsText line)) margin = n at hline hlen ⊢
  have hwhole : byteLength (cellsText line) = n + byteLength (cellsText (line.drop n)) := by
    conv_lhs => rw [hline, cellsText_append, cellsText_own, Text.byteLength_append, hlen]
  -- the first cells are covered by the cut, and no cut meets the others
  have hcovered : Dedent.uncut (⟨o, o + n⟩ :: more) o t = [] :=
    Dedent.uncut_of_covered List.mem_cons_self (Nat.le_refl o) (by simp [hlen])
  have hrest : uncutCells (⟨o, o + n⟩ :: more) (o + n) (line.drop n) = line.drop n := by
    apply uncutCells_of_apart
    intro cut hcut
    rcases List.mem_cons.mp hcut with rfl | hcut
    · exact .inl (Nat.le_refl _)
    · have hstart := hmore cut hcut
      omega
  conv_lhs => rw [hline, uncutCells_own_append, hcovered, hlen, hrest]
  rfl

/-- The cuts at the starts of lines take away the margin. -/
theorem uncutCells_lineCuts (margin o : Nat) (body : List (List (Cell Char String))) :
    uncutCells (Dedent.lineCuts margin o (body.map cellsText)) o (joinLines body) =
      joinLines (body.map (dedentLine margin)) := by
  induction body generalizing o with
  | nil => rfl
  | cons line rest ih =>
    have hlater : ∀ cut ∈ Dedent.lineCuts margin (o + byteLength (cellsText line) + 1)
        (rest.map cellsText), o + byteLength (cellsText line) + 1 ≤ cut.start :=
      Dedent.le_start_of_mem_lineCuts
    have hindent : min (Dedent.indentation (cellsText line)) margin ≤
        byteLength (cellsText line) :=
      (Nat.min_le_left _ _).trans (Dedent.indentation_le_byteLength _)
    have hlines := ih (o + byteLength (cellsText line) + 1)
    rw [List.map_cons, uncutCells_lineCuts_cons, List.map_cons, joinLines_cons, joinLines_cons,
      uncutCells_append, uncutCells_line fun cut hcut => Nat.le_of_succ_le (hlater cut hcut)]
    refine congrArg (dedentLine margin line ++ ·) ?_
    cases rest with
    | nil => rfl
    | cons next rest =>
      have hnewline : byteLength (cellsText [Cell.own '\n']) = 1 := rfl
      rw [nextLines, ← List.singleton_append (x := Cell.own '\n'), uncutCells_append, hnewline,
        uncutCells_of_apart, uncutCells_cons_of_apart fun i _ => by simp only; omega]
      · exact congrArg (Cell.own '\n' :: ·) hlines
      · intro cut hcut
        rcases List.mem_cons.mp hcut with rfl | hcut
        · exact .inl (by simp only; omega)
        · exact .inr (hlater cut hcut)

theorem exists_own_of_blankLines (h : ∀ line ∈ blank, Dedent.isBlankLine (cellsText line) = true) :
    ∃ t : List Char, (blank.flatMap fun line => line ++ [.own '\n']) = t.map .own := by
  induction blank with
  | nil => exact ⟨[], rfl⟩
  | cons line rest ih =>
    obtain ⟨t, ht⟩ := exists_own_of_isBlankLine (h line List.mem_cons_self)
    obtain ⟨more, hmore⟩ := ih fun line hline => h line (List.mem_cons_of_mem _ hline)
    exact ⟨t ++ ['\n'] ++ more, by simp [ht, hmore]⟩

theorem splitBlankLines_map (hne : text ≠ []) :
    Dedent.splitBlankLines (text.map cellsText) =
      ((text.take (blankLines text)).map cellsText, (text.drop (blankLines text)).map cellsText) ∧
      text.drop (blankLines text) ≠ [] ∧
      ∀ line ∈ text.take (blankLines text), Dedent.isBlankLine (cellsText line) = true := by
  obtain ⟨happ, hbody, hblank⟩ := Dedent.splitBlankLines_spec (by simpa using hne :
    text.map cellsText ≠ [])
  have htake : (Dedent.splitBlankLines (text.map cellsText)).1 =
      (text.take (blankLines text)).map cellsText := by
    rw [List.map_take, blankLines]
    exact (happ ▸ List.take_left).symm
  have hdrop : (Dedent.splitBlankLines (text.map cellsText)).2 =
      (text.drop (blankLines text)).map cellsText := by
    rw [List.map_drop, blankLines]
    exact (happ ▸ List.drop_left).symm
  rw [hdrop] at hbody
  rw [htake] at hblank
  refine ⟨Prod.ext htake hdrop, by simpa using hbody, ?_⟩
  intro line hline
  exact hblank _ (List.mem_map_of_mem hline)

/-- Dedenting goes line by line. -/
theorem uncutCells_joinLines (hne : text ≠ []) (hlines : ∀ line ∈ text, '\n' ∉ cellsText line) :
    uncutCells (Dedent.cuts (cellsText (joinLines text))) 0 (joinLines text) =
      joinLines (dedentLines text) := by
  have hfound : Dedent.lines (cellsText (joinLines text)) = text.map cellsText := by
    rw [cellsText_joinLines]
    refine Dedent.lines_join (by simpa using hne) ?_
    intro line hline
    obtain ⟨cells, hcells, rfl⟩ := List.mem_map.mp hline
    exact hlines cells hcells
  obtain ⟨hsplit, hbody, hblank⟩ := splitBlankLines_map hne
  obtain ⟨t, ht⟩ := exists_own_of_blankLines hblank
  have hwhole : joinLines text = t.map .own ++ joinLines (text.drop (blankLines text)) := by
    rw [← ht, joinLines, joinLines, ← Text.intercalate_append _ _ hbody, List.take_append_drop]
  have hstart : (((text.take (blankLines text)).map cellsText).flatMap fun line => line ++ ['\n']) =
      t := by
    rw [← cellsText_own t, ← ht, cellsText, List.flatMap_map, List.flatMap_assoc]
    simp [cellsText, Cell.text]
  have hcuts : Dedent.cuts (cellsText (joinLines text)) =
      (if byteLength t = 0 then [] else [⟨0, byteLength t⟩]) ++
        Dedent.lineCuts (Dedent.margin ((text.drop (blankLines text)).map cellsText))
          (byteLength t) ((text.drop (blankLines text)).map cellsText) := by
    rw [Dedent.cuts, hfound, hsplit]
    simp only [hstart]
  rw [hcuts, dedentLines, hwhole, uncutCells_own_append, Nat.zero_add]
  split
  · next hnone =>
    obtain rfl := Text.eq_nil_of_byteLength_zero hnone
    exact uncutCells_lineCuts _ 0 _
  · -- the first cut covers the blank lines and ends where the others begin
    rw [List.singleton_append, uncutCells_cons_of_apart fun i hle => .inr hle, uncutCells_lineCuts,
      Dedent.uncut_of_covered List.mem_cons_self (Nat.le_refl 0) (by simp)]
    rfl

/-! ## Cells with other names -/

/-- Two cells are the same up to the names of gaps. -/
inductive Cell.Renamed {β : Type} (r : Renaming) : Cell β String → Cell β String → Prop
  | own (item : β) : Cell.Renamed r (.own item) (.own item)
  | gap {a b : String} : r.names a b → Cell.Renamed r (.gap a) (.gap b)

section

variable {r : Renaming} {line' cells' : List (Cell Char String)}
  {text' : List (List (Cell Char String))}

theorem isBlankLine_renamed (h : List.Forall₂ (Cell.Renamed r) line line') :
    Dedent.isBlankLine (cellsText line) = Dedent.isBlankLine (cellsText line') := by
  induction h with
  | nil => rfl
  | cons hcell _ ih =>
    cases hcell with
    | own c =>
      simp only [Dedent.isBlankLine, cellsText_cons, List.all_append] at ih ⊢
      rw [ih]
    | gap _ => rfl

theorem indentation_renamed (h : List.Forall₂ (Cell.Renamed r) line line') :
    Dedent.indentation (cellsText line) = Dedent.indentation (cellsText line') := by
  induction h with
  | nil => rfl
  | cons hcell _ ih =>
    cases hcell with
    | own c =>
      simp only [cellsText_cons, Cell.text, List.singleton_append, Dedent.indentation_cons, ih]
    | gap _ => rfl

theorem blankLines_renamed (h : List.Forall₂ (List.Forall₂ (Cell.Renamed r)) text text') :
    blankLines text = blankLines text' := by
  unfold blankLines
  induction h with
  | nil => rfl
  | @cons line line' rest rest' hline hrest ih =>
    cases hrest with
    | nil => rfl
    | cons hnext hmore =>
      simp only [List.map_cons, Dedent.splitBlankLines] at ih ⊢
      rw [isBlankLine_renamed hline]
      split
      · simpa using ih
      · rfl

theorem margin_renamed (h : List.Forall₂ (List.Forall₂ (Cell.Renamed r)) text text') :
    Dedent.margin (text.map cellsText) = Dedent.margin (text'.map cellsText) := by
  have hindents : ((text.map cellsText).filter (!Dedent.isBlankLine ·)).map Dedent.indentation =
      ((text'.map cellsText).filter (!Dedent.isBlankLine ·)).map Dedent.indentation := by
    induction h with
    | nil => rfl
    | cons hline _ ih =>
      simp only [List.map_cons, List.filter_cons, isBlankLine_renamed hline]
      split
      · rw [List.map_cons, List.map_cons, ih, indentation_renamed hline]
      · exact ih
  rw [Dedent.margin, Dedent.margin, hindents]

theorem dedentLines_renamed (h : List.Forall₂ (List.Forall₂ (Cell.Renamed r)) text text') :
    List.Forall₂ (List.Forall₂ (Cell.Renamed r)) (dedentLines text) (dedentLines text') := by
  have hbody := List.forall₂_drop (blankLines text') h
  rw [dedentLines, dedentLines, blankLines_renamed h, margin_renamed hbody]
  rw [List.forall₂_map_left_iff, List.forall₂_map_right_iff]
  refine hbody.imp fun line line' hline => ?_
  rw [dedentLine, dedentLine, indentation_renamed hline]
  exact List.forall₂_drop _ hline

theorem joinLines_renamed (h : List.Forall₂ (List.Forall₂ (Cell.Renamed r)) text text') :
    List.Forall₂ (Cell.Renamed r) (joinLines text) (joinLines text') := by
  induction h with
  | nil => exact .nil
  | cons hline hrest ih =>
    rw [joinLines_cons, joinLines_cons]
    refine List.rel_append hline ?_
    cases hrest with
    | nil => exact .nil
    | cons => exact .cons (.own '\n') ih

/-- Cells that are the same up to the names of gaps have corresponding lines. -/
theorem exists_lines (h : List.Forall₂ (Cell.Renamed r) cells cells') :
    ∃ text text', text ≠ [] ∧ cells = joinLines text ∧ cells' = joinLines text' ∧
      List.Forall₂ (List.Forall₂ (Cell.Renamed r)) text text' ∧
      (∀ line ∈ text, Cell.own '\n' ∉ line) ∧ ∀ line ∈ text', Cell.own '\n' ∉ line := by
  induction h with
  | nil => exact ⟨[[]], [[]], by simp, rfl, rfl, .cons .nil .nil, by simp, by simp⟩
  | @cons cell cell' cells cells' hcell _ ih =>
    obtain ⟨text, text', hne, rfl, rfl, htext, hlines, hlines'⟩ := ih
    cases htext with
    | nil => exact absurd rfl hne
    | @cons line line' rest rest' hline hrest =>
    by_cases hnewline : cell = .own '\n'
    · -- a newline ends an empty line in front of the others
      subst hnewline
      cases hcell
      refine ⟨[] :: line :: rest, [] :: line' :: rest', by simp, ?_, ?_,
        .cons .nil (.cons hline hrest), by simpa using hlines, by simpa using hlines'⟩
      · rw [joinLines_cons [], nextLines, List.nil_append]
      · rw [joinLines_cons [], nextLines, List.nil_append]
    · -- any other cell belongs to the first line
      have hnewline' : cell' ≠ .own '\n' := by
        rintro rfl
        cases hcell
        exact hnewline rfl
      rw [List.forall_mem_cons] at hlines hlines'
      refine ⟨(cell :: line) :: rest, (cell' :: line') :: rest', by simp, ?_, ?_,
        .cons (.cons hcell hline) hrest, ?_, ?_⟩
      · rw [joinLines_cons, joinLines_cons, List.cons_append]
      · rw [joinLines_cons, joinLines_cons, List.cons_append]
      · rw [List.forall_mem_cons, List.mem_cons, not_or]
        exact ⟨⟨Ne.symm hnewline, hlines.1⟩, hlines.2⟩
      · rw [List.forall_mem_cons, List.mem_cons, not_or]
        exact ⟨⟨Ne.symm hnewline', hlines'.1⟩, hlines'.2⟩

theorem mem_joinLines (hline : line ∈ text) {cell : Cell Char String} (hcell : cell ∈ line) :
    cell ∈ joinLines text := by
  induction text with
  | nil => cases hline
  | cons first rest ih =>
    rw [joinLines_cons, List.mem_append]
    rcases List.mem_cons.mp hline with rfl | hline
    · exact .inl hcell
    · have hrest := ih hline
      cases rest with
      | nil => cases hline
      | cons next rest => exact .inr (List.mem_cons_of_mem _ hrest)

/-- The names of gaps have no newlines. -/
def GapsOnLines (cells : List (Cell Char String)) : Prop :=
  ∀ name, .gap name ∈ cells → '\n' ∉ name.toList

theorem GapsOnLines.not_mem (h : GapsOnLines line) (hline : Cell.own '\n' ∉ line) :
    '\n' ∉ cellsText line := by
  intro hmem
  obtain ⟨cell, hcell, hmem⟩ := List.mem_flatMap.mp hmem
  cases cell with
  | own c =>
    rw [Cell.text, List.mem_singleton] at hmem
    exact hline (hmem ▸ hcell)
  | gap name =>
    have hname := h name hcell
    simp [Cell.text, hname] at hmem

/-- Cells that are the same up to the names of gaps are dedented alike. -/
theorem uncutCells_renamed (h : List.Forall₂ (Cell.Renamed r) cells cells')
    (hgaps : GapsOnLines cells) (hgaps' : GapsOnLines cells') :
    List.Forall₂ (Cell.Renamed r) (uncutCells (Dedent.cuts (cellsText cells)) 0 cells)
      (uncutCells (Dedent.cuts (cellsText cells')) 0 cells') := by
  obtain ⟨text, text', hne, rfl, rfl, htext, hlines, hlines'⟩ := exists_lines h
  have hne' : text' ≠ [] := by
    rintro rfl
    cases htext
    exact hne rfl
  rw [uncutCells_joinLines hne fun line hline => ?_, uncutCells_joinLines hne' fun line hline => ?_]
  · exact joinLines_renamed (dedentLines_renamed htext)
  · exact GapsOnLines.not_mem (fun name hname => hgaps' name (mem_joinLines hline hname))
      (hlines' line hline)
  · exact GapsOnLines.not_mem (fun name hname => hgaps name (mem_joinLines hline hname))
      (hlines line hline)

end

end ComponentMarkup
