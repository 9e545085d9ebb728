import ComponentMarkup.Proofs.Position.Origins
import ComponentMarkup.Proofs.Template.Joining
import ComponentMarkup.Proofs.Template.Stages

/-!
# From what is read back to the template

The text that is read for an expression consists of bytes of the template, placeholders and brackets.
Main statement: it is the segments of the expression, joined and without exactly the cuts of
dedenting; the source map leads every byte that was copied back to its place in the template; and an
error in the text is reported inside of the expression, at the place of the byte where it was found if
that byte was copied.
-/

namespace ComponentMarkup

open Text (byteLength bytes isBlank)

/-! ## Deleting what is cut -/

namespace Dedent

/-- The items that no cut covers. The first one stands at an offset. -/
def delete {α : Type} (cuts : List Span) (o : Nat) : List α → List α
  | [] => []
  | x :: rest =>
    if cuts.any (·.containsOffset o) then delete cuts (o + 1) rest
    else x :: delete cuts (o + 1) rest

variable {α : Type}

theorem delete_eq_remaining (cuts : List Span) (o : Nat) (xs : List α) :
    delete cuts o xs = remaining (fun _ => 1) (fun _ => false) cuts o xs := by
  induction xs generalizing o with
  | nil => rfl
  | cons x xs ih => rw [delete, remaining, ih]; rfl

theorem sum_one (xs : List α) : (xs.map fun _ => 1).sum = xs.length := by
  simp

theorem delete_append (cuts : List Span) (o : Nat) (xs ys : List α) :
    delete cuts o (xs ++ ys) = delete cuts o xs ++ delete cuts (o + xs.length) ys := by
  simp only [delete_eq_remaining, remaining_append, sum_one]

theorem delete_sublist (cuts : List Span) (o : Nat) (xs : List α) : (delete cuts o xs).Sublist xs := by
  induction xs generalizing o with
  | nil => exact .slnil
  | cons x xs ih =>
    rw [delete]
    split
    · exact (ih _).cons x
    · exact (ih _).cons_cons x

end Dedent

/-! ## Spliced pieces -/

namespace Lowering

open Splice (Traces)
open TracedByte (copied made origins)

/-- The bytes that are read for a piece, before dedenting. -/
def Piece.traced : Piece → List TracedByte
  | .copy text start => copied text start
  | .gap name span filling => made (Piece.gap name span filling).text

theorem Piece.length_traced (piece : Piece) : piece.traced.length = byteLength piece.text := by
  cases piece with
  | copy text start => exact TracedByte.length_copied text start
  | gap name span filling => exact TracedByte.length_made _

/-- A piece comes from inside of a span, and its placeholder has no blanks. -/
def Piece.Inside (span : Span) : Piece → Prop
  | .copy text start => span.start ≤ start ∧ start + byteLength text ≤ span.stop
  | .gap name source _ => (span.start ≤ source.start ∧ source.start ≤ source.stop ∧
      source.stop ≤ span.stop) ∧ ∀ c ∈ name.toList, isBlank c = false

section

variable {text : List Char} {cuts : List Span} {span : Span} {start : Nat} {s : Splice}
  {code : List TracedByte}

/-- What the cuts keep of a text is traced to where it stands in the template. -/
theorem traces_spliceCopy {front t back : List Char} (horder : Dedent.InOrder cuts)
    (hcuts : ∀ cut ∈ cuts, Dedent.IsCut text cut) (htext : text = front ++ t ++ back)
    (hstart : span.start ≤ start) (hstop : start + byteLength t ≤ span.stop) (h : Traces span s code) :
    Traces span (spliceCopy cuts (byteLength front) t start s)
      (code ++ Dedent.delete cuts (byteLength front) (copied t start)) := by
  obtain ⟨parts, hparts, hcopy, hleft⟩ := exists_parts_of_spliceCopy horder hcuts
    (fun o t => copied t (start + o)) (fun _ => Nat.one_pos)
    (fun o t u => by rw [TracedByte.copied_append, Nat.add_assoc])
    (fun o t => by rw [Dedent.sum_one, TracedByte.length_copied]) htext start s
  rw [Dedent.delete_eq_remaining, hcopy, ← Nat.add_zero start, hleft, Nat.add_zero]
  clear hcopy hleft
  induction parts generalizing s code with
  | nil => exact (List.append_nil code).symm ▸ h
  | cons p parts ih =>
    obtain ⟨⟨x, rfl⟩, hparts⟩ := List.forall_mem_cons.mp hparts
    simp only [Text.byteLength_append] at hstop
    rw [List.foldl_cons, List.flatMap_cons, ← List.append_assoc code]
    exact ih (h.pushCopy p.2 (by omega) (by omega)) hparts

/-- Spliced pieces are traced: the copied texts to the template, without what the cuts cover. -/
theorem traces_splicePieces (horder : Dedent.InOrder cuts)
    (hcuts : ∀ cut ∈ cuts, Dedent.IsCut text cut) {pieces : List Piece}
    (hinside : ∀ piece ∈ pieces, piece.Inside span) (front : List Char)
    (htext : text = front ++ pieces.flatMap Piece.text) {s : Splice} {code : List TracedByte}
    (h : Traces span s code) :
    Traces span (splicePieces cuts (byteLength front) s pieces)
      (code ++ Dedent.delete cuts (byteLength front) (pieces.flatMap Piece.traced)) := by
  induction pieces generalizing front s code with
  | nil =>
    show Traces span s (code ++ [])
    rwa [List.append_nil]
  | cons piece rest ih =>
    have hpiece := hinside piece List.mem_cons_self
    have hrest := ih fun p hp => hinside p (List.mem_cons_of_mem piece hp)
    rw [List.flatMap_cons, ← List.append_assoc] at htext
    rw [List.flatMap_cons, Dedent.delete_append, Piece.length_traced, ← List.append_assoc,
      ← Text.byteLength_append]
    cases piece with
    | copy t start =>
      have htext : text = front ++ t ++ rest.flatMap Piece.text := htext
      rw [splicePieces, ← Text.byteLength_append]
      exact hrest (front ++ t) htext (traces_spliceCopy horder hcuts htext hpiece.1 hpiece.2 h)
    | gap name source filling =>
      obtain ⟨⟨hstart, hle, hstop⟩, hname⟩ := hpiece
      have hkept : Dedent.delete cuts (byteLength front) (Piece.gap name source filling).traced =
          made (Piece.gap name source filling).text := by
        rw [Dedent.delete_eq_remaining]
        refine Dedent.remaining_of_free (fun _ => Nat.one_pos) fun i hi hi' => ?_
        rw [Dedent.sum_one, Piece.length_traced] at hi'
        exact Dedent.any_containsOffset_eq_false hcuts htext (isBlank_of_mem_gap hname) hi hi'
      rw [splicePieces, ← Text.byteLength_append, hkept]
      exact hrest _ htext (h.pushReplacement (List.cons_ne_nil _ _) hstart hle hstop)

/-- The text that is read for an expression, with its source map. -/
theorem traces_spliceExpr (kind : FragmentKind) {pieces : List Piece}
    (hinside : ∀ piece ∈ pieces, piece.Inside span) :
    Traces span (spliceExpr kind pieces)
      (kind.enclose (made ['[']) (made [']'])
        (Dedent.delete (Dedent.cuts (pieces.flatMap Piece.text)) 0
          (pieces.flatMap Piece.traced))) := by
  obtain ⟨horder, hcuts⟩ := Dedent.cuts_spec (pieces.flatMap Piece.text)
  have hempty := Splice.traces_empty span
  cases kind with
  | scalar => exact traces_splicePieces horder hcuts hinside [] rfl hempty
  | list => exact (traces_splicePieces horder hcuts hinside [] rfl (hempty.pushText ['['])).pushText [']']

end

/-! ## Segments -/

/-- The bytes that are read for segments before dedenting, with the given placeholders. -/
def tracedSegments (segments : List Segment) (names : List String) : List TracedByte :=
  Segment.spell (fun text span => copied text span.start) (fun name => made (Cell.text (.gap name)))
    segments names

theorem flatMap_traced_eq {segments : List Segment} {pieces : List Piece}
    (h : List.Forall₂ PieceOf segments pieces) :
    pieces.flatMap Piece.traced = tracedSegments segments (gapNames pieces) :=
  flatMap_eq_spell h (fun _ _ => rfl) fun _ _ _ => rfl

end Lowering

/-! ## Where segments are laid -/

section

open Lowering (tracedSegments)
open TracedByte (origins)

variable {template : List Char} {o stop : Nat} {segments : List Segment}

theorem Laid.le (h : Laid template o segments stop) : o ≤ stop := by
  induction h with
  | nil => exact Nat.le_refl _
  | cons _ _ ih => omega

/-- Every segment takes its text's length of the template. -/
theorem Laid.span_eq (h : Laid template o segments stop) :
    ∀ s ∈ segments, o ≤ s.span.start ∧ s.span.stop = s.span.start + byteLength s.text ∧
      s.span.stop ≤ stop := by
  induction h with
  | nil => exact fun _ hs => absurd hs List.not_mem_nil
  | @cons o t element rest stop _ hrest ih =>
    intro s hs
    have hle := hrest.le
    obtain rfl | hs := List.mem_cons.mp hs
    · exact ⟨Nat.le_refl o, rfl, hle⟩
    · have hs := ih s hs
      omega

/-- Copied bytes stand in the template where they were copied from. -/
theorem Laid.byte_of_mem (h : Laid template o segments stop) {names : List String} {b : UInt8}
    {s : Nat} (hmem : ⟨b, some s⟩ ∈ tracedSegments segments names) :
    (bytes template)[s]? = some b := by
  induction h generalizing names with
  | nil => cases hmem
  | @cons o t element rest stop hat _ ih =>
    cases element with
    | none =>
      obtain hmem | hmem := List.mem_append.mp hmem
      · obtain ⟨front, back, rfl, rfl⟩ := hat
        exact (TracedByte.byte_of_mem_copied hmem).1
      · exact ih hmem
    | some e =>
      cases names with
      | nil => exact ih hmem
      | cons name names =>
        obtain hmem | hmem := List.mem_append.mp hmem
        · obtain ⟨_, -, hnone⟩ := List.mem_map.mp hmem
          cases hnone
        · exact ih hmem

/-- The places that bytes were copied from ascend, and lie where the segments are laid. -/
theorem Laid.origins_spec (h : Laid template o segments stop) (names : List String) :
    (origins (tracedSegments segments names)).Pairwise (· < ·) ∧
      ∀ s ∈ origins (tracedSegments segments names), o ≤ s ∧ s < stop := by
  induction h generalizing names with
  | nil => exact ⟨.nil, fun _ hs => absurd hs List.not_mem_nil⟩
  | @cons o t element rest stop _ hrest ih =>
    have hle := hrest.le
    -- a nested element has no bytes of its own, so its segment only moves the places on
    have hskip : ∀ names, (origins (tracedSegments rest names)).Pairwise (· < ·) ∧
        ∀ s ∈ origins (tracedSegments rest names), o ≤ s ∧ s < stop := by
      intro names
      refine ⟨(ih names).1, fun s hs => ?_⟩
      have hbounds := (ih names).2 s hs
      omega
    cases element with
    | none =>
      have hsplit : origins (tracedSegments (⟨t, .over o t, none⟩ :: rest) names) =
          List.range' o (byteLength t) ++ origins (tracedSegments rest names) := by
        rw [← TracedByte.origins_copied, ← TracedByte.origins_append]
        rfl
      rw [hsplit]
      constructor
      · rw [List.pairwise_append]
        refine ⟨List.pairwise_lt_range', (ih names).1, fun s hs s' hs' => ?_⟩
        have hbounds := (ih names).2 s' hs'
        rw [List.mem_range'_1] at hs
        omega
      · intro s hs
        obtain hs | hs := List.mem_append.mp hs
        · rw [List.mem_range'_1] at hs
          omega
        · exact (hskip names).2 s hs
    | some e =>
      cases names with
      | nil => exact hskip []
      | cons name names =>
        have hsplit : origins (tracedSegments (⟨t, .over o t, some e⟩ :: rest) (name :: names)) =
            origins (tracedSegments rest names) := by
          show origins (TracedByte.made _ ++ tracedSegments rest names) = _
          rw [TracedByte.origins_append, TracedByte.origins_made, List.nil_append]
        rw [hsplit]
        exact hskip names

/-- The pieces of an expression come from inside of its span. -/
theorem Laid.inside (h : Laid template o segments stop) {pieces : List Lowering.Piece}
    (hpieces : List.Forall₂ Lowering.PieceOf segments pieces)
    (hnames : ∀ name ∈ Lowering.gapNames pieces, Lexer.IsName name) :
    ∀ piece ∈ pieces, piece.Inside ⟨o, stop⟩ := by
  have hspans := h.span_eq
  clear h
  induction hpieces with
  | nil => exact fun _ hpiece => absurd hpiece List.not_mem_nil
  | @cons s piece segments pieces hof _ ih =>
    intro p hp
    obtain rfl | hp := List.mem_cons.mp hp
    · obtain ⟨hstart, hlength, hstop⟩ := hspans s List.mem_cons_self
      cases hof with
      | copy text span =>
        rw [hlength] at hstop
        exact ⟨hstart, hstop⟩
      | gap text span e name filling =>
        have hle : span.start ≤ span.stop := hlength ▸ Nat.le_add_right _ _
        exact ⟨⟨hstart, hle, hstop⟩, (hnames name List.mem_cons_self).isBlank⟩
    · refine ih ?_ (fun s' hs' => hspans s' (List.mem_cons_of_mem s hs')) p hp
      intro name hname
      refine hnames name ?_
      cases hof with
      | copy _ _ => exact hname
      | gap _ _ _ _ _ => exact List.mem_cons_of_mem _ hname

end

/-! ## Errors -/

namespace Lowering

open TracedByte (made origins)

variable {kind : FragmentKind}

theorem origins_enclose (kind : FragmentKind) (code : List TracedByte) :
    origins (kind.enclose (made ['[']) (made [']']) code) = origins code := by
  cases kind with
  | scalar => rfl
  | list =>
    show origins (made ['['] ++ code ++ made [']']) = _
    rw [TracedByte.origins_append, TracedByte.origins_append, TracedByte.origins_made,
      TracedByte.origins_made, List.nil_append, List.append_nil]

theorem mem_of_mem_enclose {code : List TracedByte} {b : UInt8} {s : Nat}
    (h : ⟨b, some s⟩ ∈ kind.enclose (made ['[']) (made [']']) code) : ⟨b, some s⟩ ∈ code := by
  have hmade : ∀ t, (⟨b, some s⟩ : TracedByte) ∉ made t := by
    intro t hmem
    obtain ⟨_, -, hnone⟩ := List.mem_map.mp hmem
    cases hnone
  cases kind with
  | scalar => exact h
  | list =>
    obtain h | h := List.mem_append.mp h
    · obtain h | h := List.mem_append.mp h
      · exact absurd h (hmade _)
      · exact h
    · exact absurd h (hmade _)

theorem errorSpan_inside {map : SourceMap} {span : Span}
    (hmap : ∀ m ∈ map.mappings, m.Inside span) (hle : span.start ≤ span.stop) (offset : Nat) :
    span.contains (errorSpan map span offset) = true ∧
      (errorSpan map span offset).start ≤ (errorSpan map span offset).stop := by
  have hstart : span.start ≤ (map.sourceOffset? offset).getD span.start ∧
      (map.sourceOffset? offset).getD span.start ≤ span.stop := by
    cases hs : map.sourceOffset? offset with
    | none => exact ⟨Nat.le_refl _, hle⟩
    | some s => exact SourceMap.sourceOffset?_inside hmap hs
  unfold errorSpan Span.contains
  simp only [Bool.and_eq_true, decide_eq_true_eq]
  split <;> omega

/-- An expression whose text is not accepted fails with the error of its text. -/
theorem exec_expression_of_rejected {ctx : LoweringContext} {source : EmbeddedExpr}
    (hne : source.segments ≠ []) {n n' : Nat} {parts : List Piece}
    (hparts : Numbering.exec (Lowering.pieces ctx source.segments) n = (.ok parts, n'))
    {e : SyntaxError} (he : Expr.parse (spliceExpr kind parts).text = .error e) :
    Numbering.exec (Lowering.expression ctx kind source) n =
      (.error ⟨.invalidExpression e.fault,
        errorSpan (spliceExpr kind parts).map source.span e.offset⟩, n') := by
  obtain ⟨span, segments⟩ := source
  have hread : readPieces kind span parts = .error ⟨.invalidExpression e.fault,
      errorSpan (spliceExpr kind parts).map span e.offset⟩ := by
    unfold readPieces
    dsimp only
    rw [he]
  rw [Lowering.expression, if_neg (by simpa using hne), Numbering.exec_bind, hparts, ← hread]
  rfl

end Lowering

open Lowering TracedByte in
/-- What is read for an expression of a template is its segments, joined with a placeholder in
parentheses for each nested element, without exactly the cuts of dedenting, and between brackets for a
list. Each byte that was copied is led back by the source map to its own place in the template, inside
of the expression, and these places ascend. If the text is not accepted, the error is reported inside
of the expression, and at the place of the byte where it was found if that one was copied. -/
theorem Element.spliced_exactly {template : List Char} {tree : Node} {root : Element}
    (hparse : Node.parse template = .ok tree) (hroot : Element.ofNode template tree = .ok root)
    {source : EmbeddedExpr} (hsource : source ∈ root.sources) {vocabulary : Vocabulary} {n n' : Nat}
    {parts : List Piece}
    (hparts : Numbering.exec (Lowering.pieces (contextFor template vocabulary) source.segments) n =
      (.ok parts, n')) (kind : FragmentKind) :
    (gapNames parts).length = (Segment.nestedOfAll source.segments).length ∧
    ∃ code, code = kind.enclose (made ['[']) (made [']'])
        (Dedent.delete (Dedent.cuts (Segment.joined source.segments (gapNames parts))) 0
          (tracedSegments source.segments (gapNames parts))) ∧
      bytes (spliceExpr kind parts).text = code.map TracedByte.byte ∧
      (∀ i b s, code[i]? = some ⟨b, some s⟩ →
        (spliceExpr kind parts).map.sourceOffset? i = some s ∧
          source.span.containsOffset s = true ∧ (bytes template)[s]? = some b) ∧
      (origins code).Pairwise (· < ·) ∧
      ∀ e, Expr.parse (spliceExpr kind parts).text = .error e → ∃ span,
        Numbering.exec (Lowering.expression (contextFor template vocabulary) kind source) n =
          (.error ⟨.invalidExpression e.fault, span⟩, n') ∧
        source.span.contains span = true ∧ span.start ≤ span.stop ∧
        ∀ b s, code[e.offset]? = some ⟨b, some s⟩ → span.start = s := by
  obtain ⟨root', hrun, hall⟩ := Element.laid_of_parse hparse
  obtain rfl : root' = root := Except.ok.inj ((run'_eq_ok.mpr ⟨[], hrun⟩).symm.trans hroot)
  have hlaid := (hall.laid.stands source hsource).laid
  have hne := (hall.laid.allFrom.isFrom source hsource).nonempty
  have hpieces := piecesFrom_of_exec hparts
  have htraces := traces_spliceExpr kind (hlaid.inside hpieces.aligned hpieces.isName)
  rw [flatMap_text_eq_joined hpieces.aligned, flatMap_traced_eq hpieces.aligned] at htraces
  obtain ⟨hascend, hbounds⟩ := hlaid.origins_spec (gapNames parts)
  refine ⟨length_gapNames hpieces.aligned, _, rfl, htraces.text, fun i b s hi => ?_, ?_, fun e he => ?_⟩
  · have hmem := (Dedent.delete_sublist _ _ _).subset (mem_of_mem_enclose (List.mem_of_getElem? hi))
    have hplace := hbounds s (List.mem_filterMap.mpr ⟨_, hmem, rfl⟩)
    refine ⟨htraces.sourceOffset?_eq hi, ?_, hlaid.byte_of_mem hmem⟩
    rw [Span.containsOffset_iff]
    exact hplace
  · rw [origins_enclose]
    exact hascend.sublist ((Dedent.delete_sublist _ _ _).filterMap _)
  · obtain ⟨hcontains, hspan⟩ := errorSpan_inside htraces.inside hlaid.le e.offset
    refine ⟨_, exec_expression_of_rejected hne hparts he, hcontains, hspan, fun b s hi => ?_⟩
    rw [errorSpan, htraces.sourceOffset?_eq hi]
    rfl

open Lowering TracedByte in
/-- An error behind a nested element, in an expression over several lines. -/
theorem Element.spliced_exactly_of_rejected :
    ∃ tree root source parts e span,
      Node.parse "<p>\x7b\n  f('é',\n    (<b/>) +)\n\x7d</p>".toList = .ok tree ∧
      Element.ofNode "<p>\x7b\n  f('é',\n    (<b/>) +)\n\x7d</p>".toList tree = .ok root ∧
      source ∈ root.sources ∧
      Numbering.exec (Lowering.pieces
        (contextFor "<p>\x7b\n  f('é',\n    (<b/>) +)\n\x7d</p>".toList .shared) source.segments) 0 =
          (.ok parts, 1) ∧
      Expr.parse (spliceExpr .scalar parts).text = .error e ∧ e.offset = 24 ∧
      Numbering.exec (Lowering.expression
        (contextFor "<p>\x7b\n  f('é',\n    (<b/>) +)\n\x7d</p>".toList .shared) .scalar source) 0 =
          (.error ⟨.invalidExpression e.fault, span⟩, 1) ∧
      source.span.contains span = true ∧ span.start = 27 := by
  have hread : ∃ tree root source,
      Node.parse "<p>\x7b\n  f('é',\n    (<b/>) +)\n\x7d</p>".toList = .ok tree ∧
      Element.ofNode "<p>\x7b\n  f('é',\n    (<b/>) +)\n\x7d</p>".toList tree = .ok root ∧
      root.sources = [source] ∧
      (Numbering.exec (Lowering.pieces
        (contextFor "<p>\x7b\n  f('é',\n    (<b/>) +)\n\x7d</p>".toList .shared)
          source.segments) 0).2 = 1 ∧
      (Numbering.exec (Lowering.pieces
        (contextFor "<p>\x7b\n  f('é',\n    (<b/>) +)\n\x7d</p>".toList .shared)
          source.segments) 0).1.toOption.any (fun parts =>
        (Expr.parse (spliceExpr .scalar parts).text).casesOn (motive := fun _ => Bool)
          (fun e => e.offset == 24 &&
            (Dedent.delete (Dedent.cuts (Segment.joined source.segments (gapNames parts))) 0
              (tracedSegments source.segments (gapNames parts)))[24]? == some ⟨41, some 27⟩)
          fun _ => false) = true := by
    refine ⟨?tree, ?root, ?source, ?parse, ?reduce, ?sources, ?number, ?facts⟩
    case parse => set_option maxRecDepth 2000 in cbv; rfl
    case reduce => cbv; rfl
    case sources => rfl
    case number => decide +kernel
    case facts => decide +kernel
  obtain ⟨tree, root, source, hparse, hroot, hsources, hnumber, hfacts⟩ := hread
  have hsource : source ∈ root.sources := by rw [hsources]; exact List.mem_singleton_self source
  rcases hparts : Numbering.exec (Lowering.pieces
    (contextFor "<p>\x7b\n  f('é',\n    (<b/>) +)\n\x7d</p>".toList .shared)
      source.segments) 0 with ⟨_ | parts, n⟩
  · rw [hparts] at hfacts
    cases hfacts
  · rw [hparts] at hnumber hfacts
    obtain rfl : n = 1 := hnumber
    obtain ⟨-, code, rfl, -, -, -, herrors⟩ :=
      Element.spliced_exactly hparse hroot hsource hparts .scalar
    rcases he : Expr.parse (spliceExpr .scalar parts).text with e | _
    · simp only [Except.toOption, Option.any_some, he, Bool.and_eq_true, beq_iff_eq] at hfacts
      obtain ⟨span, hrun, hinside, -, hstart⟩ := herrors e he
      refine ⟨tree, root, source, parts, e, span, hparse, hroot, hsource, hparts, he, hfacts.1, hrun,
        hinside, hstart 41 27 ?_⟩
      rw [hfacts.1]
      exact hfacts.2
    · simp [Except.toOption, he] at hfacts

end ComponentMarkup
