import ComponentMarkup.Proofs.Expr.Faults

/-!
# Tokens tile the source

The lexer goes over a source from its start to its end. Whatever it passes over is a blank, which has one
byte, or belongs to the token that it reads. So the spans of the tokens stand in order, and only blanks
are outside of them.
-/

namespace ComponentMarkup.Lexer

open Text (byteLength IsBoundary)

variable {source text : List Char} {tokens : List Spanned} {t : Spanned} {o stop : Nat}

/-- What separates tokens. -/
def blanks : List Char :=
  [' ', '\t', '\r', '\n', '\x0c']

theorem mem_blanks_of_isSkipped {c : Char} (h : isSkipped c = true) :
    c ∈ blanks ∧ c.utf8Size = 1 := by
  simp only [isSkipped, Bool.or_eq_true, decide_eq_true_eq] at h
  obtain (((rfl | rfl) | rfl) | rfl) | rfl := h <;> exact ⟨by decide, rfl⟩

/-- Tokens between two offsets of a source, with nothing but blanks between them. -/
structure Tiled (source : List Char) (o stop : Nat) (tokens : List Spanned) : Prop where
  spans : ∀ t ∈ tokens, o ≤ t.span.start ∧ t.span.start < t.span.stop ∧ t.span.IsWhole source
  ordered : tokens.Pairwise fun t t' => t.span.stop ≤ t'.span.start
  gaps : ∀ p, o ≤ p → p < stop → (∀ t ∈ tokens, t.span.containsOffset p = false) →
    ∃ c ∈ blanks, IsAt source [c] p

theorem Tiled.skip {c : Char} (hc : isSkipped c = true) (hat : IsAt source [c] o)
    (h : Tiled source (o + c.utf8Size) stop tokens) : Tiled source o stop tokens := by
  obtain ⟨hmem, hsize⟩ := mem_blanks_of_isSkipped hc
  rw [hsize] at h
  refine ⟨fun t ht => ⟨?_, (h.spans t ht).2⟩, h.ordered, fun p hle hlt hout => ?_⟩
  · exact Nat.le_of_succ_le (h.spans t ht).1
  · obtain rfl | hlt' := Nat.eq_or_lt_of_le hle
    · exact ⟨c, hmem, hat⟩
    · exact h.gaps p hlt' hlt hout

theorem Tiled.token (hstart : t.span.start = o) (hlt : o < t.span.stop) (hwhole : t.span.IsWhole source)
    (h : Tiled source t.span.stop stop tokens) : Tiled source o stop (t :: tokens) := by
  refine ⟨?_, List.pairwise_cons.mpr ⟨fun t' ht' => (h.spans t' ht').1, h.ordered⟩, ?_⟩
  · refine List.forall_mem_cons.mpr ⟨⟨hstart.ge, hstart.symm ▸ hlt, hwhole⟩, fun t' ht' => ?_⟩
    exact ⟨hlt.le.trans (h.spans t' ht').1, (h.spans t' ht').2⟩
  · intro p hle hp hout
    obtain ⟨hhead, htail⟩ := List.forall_mem_cons.mp hout
    rw [Span.containsOffset_eq_false_iff, hstart] at hhead
    exact h.gaps p (hhead.resolve_left hle.not_gt) hp htail

theorem tiled_of_tokensFrom (hat : IsAt source text o) (h : tokensFrom o text = .ok tokens) :
    Tiled source o (o + byteLength text) tokens := by
  fun_induction tokensFrom o text generalizing tokens with
  | case1 o =>
    cases h
    exact ⟨List.forall_mem_nil _, .nil, fun p hle hlt _ => (hle.not_gt hlt).elim⟩
  | case2 o c rest hskip ih =>
    have hword : IsAt source ([c] ++ rest) o := hat
    refine .skip hskip hword.front ?_
    rw [Text.byteLength_cons, ← Nat.add_assoc]
    exact ih hword.back h
  | case3 => cases h
  | case4 => cases h
  | case5 o c rest hskip lexeme hscan stop more hmore =>
    rename_i ih
    cases h
    have hword : c :: rest = (c :: rest.take lexeme.more) ++ rest.drop lexeme.more := by
      rw [List.cons_append, List.take_append_drop]
    rw [hword] at hat
    have hlast : o + byteLength (c :: rest) = stop + byteLength (rest.drop lexeme.more) := by
      rw [hword, Text.byteLength_append, Nat.add_assoc]
    have hpos := c.utf8Size_pos
    rw [hlast]
    refine .token rfl ?_ (.of_isAt hat.front) (ih hat.back hmore)
    show o < o + (c.utf8Size + _)
    omega

/-- The tokens of a source have spans that are not empty, stand in order, do not overlap and split no
character, and every byte outside of them is a blank. An error in a source points into it or at its end,
and not into a character. -/
theorem tokens_tile (source : List Char) :
    (∀ tokens, tokenize source = .ok tokens →
      (∀ t ∈ tokens, t.span.start < t.span.stop ∧
        IsBoundary source t.span.start ∧ IsBoundary source t.span.stop) ∧
      (tokens.Pairwise fun t t' => t.span.stop ≤ t'.span.start) ∧
      ∀ p < byteLength source, (∀ t ∈ tokens, t.span.containsOffset p = false) →
        ∃ c ∈ blanks, IsAt source [c] p) ∧
    ∀ e, tokenize source = .error e ∨ Expr.parse source = .error e →
      e.offset ≤ byteLength source ∧ IsBoundary source e.offset := by
  refine ⟨fun tokens h => ?_, fun e h => ?_⟩
  · have hat : IsAt source source 0 := ⟨[], [], by simp, rfl⟩
    have htiled := tiled_of_tokensFrom hat h
    rw [Nat.zero_add] at htiled
    refine ⟨fun t ht => ?_, htiled.ordered, fun p => htiled.gaps p p.zero_le⟩
    obtain ⟨-, hlt, hwhole⟩ := htiled.spans t ht
    exact ⟨hlt, hwhole.start, hwhole.stop⟩
  · have hboundary : IsBoundary source e.offset := by
      obtain h | h := h
      · exact (visits_of_tokensFrom_error h).isBoundary
      · exact (Expr.reaches_of_parse h).isBoundary
    exact ⟨hboundary.le_byteLength, hboundary⟩

/-- What follows a string in triple quotes, with a character of two bytes, is a blank. -/
theorem tokens_tile_of_string :
    tokenize "'''é''' x".toList = .ok [⟨.str "é", ⟨0, 8⟩⟩, ⟨.name "x", ⟨9, 10⟩⟩] ∧
      ∃ c ∈ blanks, IsAt "'''é''' x".toList [c] 8 := by
  have htokens : tokenize "'''é''' x".toList =
      .ok [⟨.str "é", ⟨0, 8⟩⟩, ⟨.name "x", ⟨9, 10⟩⟩] := by cbv
  exact ⟨htokens, ((tokens_tile _).1 _ htokens).2.2 8 (by decide) (by decide)⟩

end ComponentMarkup.Lexer
