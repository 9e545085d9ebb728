import ComponentMarkup.Proofs.Template.Hygiene
import ComponentMarkup.Template.Basic

/-!
# Traces of lowering

A pass that lowers and notes which placeholders it makes and which expressions it reads. Whether
lowering succeeds or fails, all placeholders of a run are distinct, and every expression that was read
is one of the template, with placeholders of the run in its gaps.
-/

namespace ComponentMarkup

open Lowering

/-- What was read for an expression. -/
structure Reading where
  kind : FragmentKind
  pieces : List Piece

namespace Reading

/-- The text that was read. -/
def text (r : Reading) : List Char :=
  (spliceExpr r.kind r.pieces).text

/-- The placeholders with what fills them. -/
def fillings (r : Reading) : Entries String Expr :=
  r.pieces.filterMap Piece.filling?

end Reading

/-- What lowering has done so far. -/
structure Trace where
  /-- The next number. -/
  next : Nat
  /-- The placeholders that were made, in order. -/
  placeholders : List String
  /-- The expressions that were read, in order, whether they could be read or not. -/
  readings : List Reading

/-- Nothing was done yet. -/
def Trace.start : Trace :=
  ⟨0, [], []⟩

/-- Lowering that notes what it does. -/
def Pass.traced (ctx : LoweringContext) : Pass Trace Expr where
  literal := .str
  call := ConstructorPath.call
  placeholder := do
    let trace ← get
    let name := numbered ctx.stem trace.next
    set { trace with next := trace.next + 1, placeholders := trace.placeholders ++ [name] }
    return name
  read kind span holes := do
    let pieces := holes.map PieceWith.piece
    modify fun trace => { trace with readings := trace.readings ++ [⟨kind, pieces⟩] }
    let fragment ← Numbering.ofExcept (readPieces kind span pieces)
    return fragment.node

/-- The run of lowering on an element, with its trace. -/
def Element.trace (template : List Char) (vocabulary : Vocabulary) (e : Element) :
    Except CompileError Expr × Trace :=
  let ctx := contextFor template vocabulary
  ((Pass.traced ctx).element ctx e).exec .start

/-! ## What a trace says -/

/-- A trace of a run up to a number. -/
structure Trace.UpTo (template : List Char) (n : Nat) (trace : Trace) : Prop where
  next : trace.next = n
  placeholders : trace.placeholders = (List.range n).map (numbered (stemFor template))
  readings : ∀ r ∈ trace.readings, IsReading template r.pieces ∧
    ∀ p ∈ gapNames r.pieces, p ∈ trace.placeholders

theorem Trace.upTo_start (template : List Char) : Trace.start.UpTo template 0 :=
  ⟨rfl, rfl, by simp [Trace.start]⟩

section

variable {template : List Char} {vocabulary : Vocabulary} {n : Nat} {trace : Trace}

/-- The next placeholder is noted. -/
theorem Trace.UpTo.placeholder (h : trace.UpTo template n) :
    Trace.UpTo template (n + 1) { trace with
      next := trace.next + 1
      placeholders := trace.placeholders ++ [numbered (stemFor template) trace.next] } := by
  refine ⟨congrArg (· + 1) h.next, ?_, ?_⟩
  · simp [h.placeholders, h.next, List.range_succ]
  · intro r hr
    obtain ⟨hreading, hmem⟩ := h.readings r hr
    exact ⟨hreading, fun p hp => List.mem_append_left _ (hmem p hp)⟩

/-- An expression is noted, with the placeholders that were made for it before. -/
theorem Trace.UpTo.read (h : trace.UpTo template n) {source : EmbeddedExpr}
    (hfrom : source.IsFrom template) {m : Nat} {pieces : List Piece}
    (hpieces : PiecesFrom (contextFor template vocabulary) source.segments m n pieces)
    (kind : FragmentKind) :
    Trace.UpTo template n { trace with readings := trace.readings ++ [⟨kind, pieces⟩] } := by
  refine ⟨h.next, h.placeholders, ?_⟩
  intro r hr
  rcases List.mem_append.mp hr with hr | hr
  · exact h.readings r hr
  · cases List.mem_singleton.mp hr
    refine ⟨hpieces.isReading hfrom, ?_⟩
    intro p hp
    obtain ⟨ks, hnames, -, hbounds⟩ := hpieces.numbers
    rw [hnames] at hp
    obtain ⟨k, hk, rfl⟩ := List.mem_map.mp hp
    rw [h.placeholders]
    exact List.mem_map.mpr ⟨k, List.mem_range.mpr (hbounds k hk).2, rfl⟩

end

/-- The pass lowers, and its trace follows the run. -/
theorem Pass.simulates_traced (template : List Char) (vocabulary : Vocabulary) :
    (Pass.traced (contextFor template vocabulary)).Simulates SameExpr
      (fun n trace => trace.UpTo template n) (contextFor template vocabulary)
      (fun source => source.IsFrom template) where
  literal text := rfl
  call _ hitems hargs _ := SameExpr.call hitems hargs
  placeholder n := by
    intro trace htrace
    refine ⟨htrace.placeholder, ?_⟩
    rw [← htrace.next]
    rfl
  read := by
    intro kind source n n' pieces holes hfrom hrun hpieces trace htrace
    have hholes := map_piece_of_pieceRel hpieces
    have hnoted := htrace.read hfrom (piecesFrom_of_exec hrun) kind
    have hread : SimAt (fun n (trace : Trace) => trace.UpTo template n)
        (fun f a => f.kind = kind ∧ SameExpr kind f.node a) n'
        (Numbering.ofExcept (readPieces kind source.span pieces))
        (Numbering.ofExcept (readPieces kind source.span pieces) >>= fun f => pure f.node) := by
      refine SimAt.map_right (SimAt.ofExcept _) ?_
      rintro f _ ⟨rfl, hread⟩
      obtain ⟨e, -, rfl⟩ := readPieces_eq_ok hread
      exact ⟨rfl, rfl⟩
    have hagree := hread _ hnoted
    unfold Pass.traced
    dsimp only
    rw [hholes]
    exact hagree

theorem Element.trace_spec {template : List Char} (vocabulary : Vocabulary) {e : Element}
    (hsources : ∀ source ∈ e.sources, source.IsFrom template) :
    (e.trace template vocabulary).1 = e.lower template vocabulary ∧
      ∃ n, (e.trace template vocabulary).2.UpTo template n := by
  have hsim := Pass.simAt_element (Pass.simulates_traced template vocabulary) e hsources 0
  obtain ⟨htrace, hresult⟩ := hsim _ (Trace.upTo_start template)
  refine ⟨?_, _, htrace⟩
  unfold Element.trace Element.lower
  change _ = (Numbering.exec _ 0).1
  dsimp only
  rcases hlower : (Numbering.exec (Lowering.element (contextFor template vocabulary) e) 0).1 with
    error | x
  all_goals
    rcases htraced : (Numbering.exec ((Pass.traced (contextFor template vocabulary)).element
      (contextFor template vocabulary) e) Trace.start).1 with error' | x'
    all_goals
      rw [hlower, htraced] at hresult
      first
        | exact absurd hresult id
        | exact congrArg _ hresult.symm

/-! ## Names of the template and placeholders -/

/-- What was read keeps the names of a template apart from placeholders. -/
structure Reading.Hygienic (template : List Char) (placeholders : List String) (r : Reading) :
    Prop where
  /-- Every token comes from one of the pieces, and no name in a copied text is a placeholder. -/
  tokens : ∀ spanned, Lexer.tokenize r.text = .ok spanned →
    ∃ parts, List.Forall₂ Piece.Gives r.pieces parts ∧
      spanned.map (·.token) = r.kind.tokens parts.flatten ∧
      ∀ text start part, (.copy text start, part) ∈ r.pieces.zip parts →
        ∀ n, .name n ∈ part → n ∉ placeholders
  /-- Only placeholders have fillings, and none of them stands in the template. -/
  fillings : ∀ n, (r.fillings.lookup n).isSome → n ∈ placeholders ∧ ¬ n.toList <:+: template
  /-- The leaves of what was read are replaced, and nothing in the fillings. -/
  fill : ∀ e, Expr.parse r.text = .ok e →
    (e.fill.run r.fillings).1 = e.substitute fun n => r.fillings.lookup n

theorem gives_of_mem_zip {pieces : List Piece} {parts : List (List Token)}
    (h : List.Forall₂ Piece.Gives pieces parts) {piece : Piece} {part : List Token}
    (hmem : (piece, part) ∈ pieces.zip parts) : piece ∈ pieces ∧ piece.Gives part :=
  ⟨(List.of_mem_zip hmem).1, (List.forall₂_iff_zip.mp h).2 hmem⟩

theorem Trace.UpTo.hygienic {template : List Char} {n : Nat} {trace : Trace}
    (h : trace.UpTo template n) {r : Reading} (hr : r ∈ trace.readings) :
    r.Hygienic template trace.placeholders := by
  obtain ⟨hreading, hmade⟩ := h.readings r hr
  refine ⟨?_, ?_, fun e he => hreading.fill_eq he⟩
  · intro spanned hspanned
    obtain ⟨parts, hparts, hflat, -⟩ :=
      hreading.exists_parts (Lexer.tokenize_eq_ok_iff.mp ⟨spanned, hspanned, rfl⟩)
    refine ⟨parts, hparts, hflat, ?_⟩
    intro text start part hmem name hname hplaceholder
    obtain ⟨hcopy, hgives⟩ := gives_of_mem_zip hparts hmem
    have hwithin := (hgives name hname).trans (hreading.infix_of_copy hcopy)
    rw [h.placeholders] at hplaceholder
    obtain ⟨k, -, hk⟩ := List.mem_map.mp hplaceholder
    exact ne_numbered_of_infix hwithin k hk.symm
  · intro name hname
    have hgap := mem_gapNames_of_lookup hname
    exact ⟨hmade name hgap, hreading.not_infix hgap⟩

theorem Trace.UpTo.nodup {template : List Char} {n : Nat} {trace : Trace}
    (h : trace.UpTo template n) : trace.placeholders.Nodup := by
  rw [h.placeholders]
  exact List.Nodup.map (fun _ _ => numbered_inj) List.nodup_range

/-- The search for a stem ends with the first one that the template does not contain. Whatever the
vocabulary, all placeholders of a run of lowering are distinct, and what it reads keeps the names of
the template apart from them. -/
theorem Element.placeholders_hygienic (template : List Char) (vocabulary : Vocabulary) :
    (∃ m, stemFor template = stem m ∧ ¬ stem m <:+: template ∧ ∀ j < m, stem j <:+: template) ∧
      ∀ tree root, Node.parse template = .ok tree → Element.ofNode template tree = .ok root →
        (root.trace template vocabulary).1 = root.lower template vocabulary ∧
        (root.trace template vocabulary).2.placeholders.Nodup ∧
        ∀ r ∈ (root.trace template vocabulary).2.readings,
          r.Hygienic template (root.trace template vocabulary).2.placeholders := by
  refine ⟨stemFor_spec template, ?_⟩
  intro tree root hparse hroot
  obtain ⟨root', hrun, hfrom⟩ := Element.ofNode_of_parse hparse
  obtain ⟨left, hrun'⟩ := run'_eq_ok.mp hroot
  obtain ⟨rfl, -⟩ : root' = root ∧ [] = left := by
    rw [hrun] at hrun'
    cases hrun'
    exact ⟨rfl, rfl⟩
  obtain ⟨hresult, n, htrace⟩ := Element.trace_spec vocabulary hfrom.isFrom
  exact ⟨hresult, htrace.nodup, fun r hr => htrace.hygienic hr⟩

/-- A template that contains the usual stem: placeholders get one more underscore. -/
theorem Element.placeholders_hygienic_of_stem_taken :
    ∃ tree root, Node.parse "<p>\x7b(<b/>) if __htexpr_0 else x\x7d</p>".toList = .ok tree ∧
      Element.ofNode "<p>\x7b(<b/>) if __htexpr_0 else x\x7d</p>".toList tree = .ok root ∧
      (root.trace "<p>\x7b(<b/>) if __htexpr_0 else x\x7d</p>".toList .shared).2.placeholders =
        ["___htexpr_0"] ∧
      ∀ r ∈ (root.trace "<p>\x7b(<b/>) if __htexpr_0 else x\x7d</p>".toList .shared).2.readings,
        r.Hygienic "<p>\x7b(<b/>) if __htexpr_0 else x\x7d</p>".toList ["___htexpr_0"] := by
  have hrun : ∃ tree root, Node.parse "<p>\x7b(<b/>) if __htexpr_0 else x\x7d</p>".toList = .ok tree ∧
      Element.ofNode "<p>\x7b(<b/>) if __htexpr_0 else x\x7d</p>".toList tree = .ok root ∧
      (root.trace "<p>\x7b(<b/>) if __htexpr_0 else x\x7d</p>".toList .shared).2.placeholders =
        ["___htexpr_0"] := by
    refine ⟨?tree, ?root, ?parse, ?reduce, ?made⟩
    case parse => cbv; rfl
    case reduce => cbv; rfl
    case made => decide +kernel
  obtain ⟨tree, root, hparse, hroot, hmade⟩ := hrun
  obtain ⟨-, -, hreadings⟩ := (Element.placeholders_hygienic _ .shared).2 tree root hparse hroot
  rw [hmade] at hreadings
  exact ⟨tree, root, hparse, hroot, hmade, hreadings⟩

end ComponentMarkup
