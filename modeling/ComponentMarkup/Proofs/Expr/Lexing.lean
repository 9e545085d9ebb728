import ComponentMarkup.Expr.Lexer

/-!
# Tokens of a text

`Lexes text tokens` says that a text falls into the given tokens, without their spans. The rules
follow the walk over the text: a blank is passed over, any other character begins the token that
`scan` finds there. The relation holds exactly of what `tokenize` returns.
-/

namespace ComponentMarkup.Lexer

/-- A text falls into tokens. -/
inductive Lexes : List Char → List Token → Prop where
  | nil : Lexes [] []
  | skip {c rest tokens} : isSkipped c = true → Lexes rest tokens → Lexes (c :: rest) tokens
  | token {c rest lexeme tokens} : isSkipped c = false → scan c rest = .ok lexeme →
      Lexes (rest.drop lexeme.more) tokens → Lexes (c :: rest) (lexeme.token :: tokens)

theorem lexes_of_tokensFrom {offset : Nat} {text : List Char} {tokens : List Spanned}
    (h : tokensFrom offset text = .ok tokens) : Lexes text (tokens.map (·.token)) := by
  fun_induction tokensFrom offset text generalizing tokens with
  | case1 offset =>
    cases h
    exact Lexes.nil
  | case2 offset c rest hskip ih => exact Lexes.skip hskip (ih h)
  | case3 => cases h
  | case4 => cases h
  | case5 offset c rest hskip lexeme hscan stop more hmore =>
    rename_i ih
    cases h
    rw [List.map_cons]
    exact Lexes.token (by simpa using hskip) hscan (ih hmore)

theorem tokensFrom_of_lexes {text : List Char} {tokens : List Token} (h : Lexes text tokens)
    (offset : Nat) :
    ∃ spanned, tokensFrom offset text = .ok spanned ∧ spanned.map (·.token) = tokens := by
  induction h generalizing offset with
  | nil => exact ⟨[], by rw [tokensFrom], rfl⟩
  | @skip c rest tokens hskip _ ih =>
    obtain ⟨spanned, hspanned, hmap⟩ := ih (offset + c.utf8Size)
    exact ⟨spanned, by rw [tokensFrom, if_pos hskip, hspanned], hmap⟩
  | @token c rest lexeme tokens hskip hscan _ ih =>
    let stop := offset + Text.byteLength (c :: rest.take lexeme.more)
    obtain ⟨spanned, hspanned, hmap⟩ := ih stop
    refine ⟨⟨lexeme.token, ⟨offset, stop⟩⟩ :: spanned, ?_, by rw [List.map_cons, hmap]⟩
    rw [tokensFrom, if_neg (by simp [hskip]), hscan]
    simp only [stop] at hspanned
    simp only [hspanned, stop]

/-- The relation is what the lexer computes. -/
theorem tokenize_eq_ok_iff {text : List Char} {tokens : List Token} :
    (∃ spanned, tokenize text = .ok spanned ∧ spanned.map (·.token) = tokens) ↔
      Lexes text tokens := by
  constructor
  · rintro ⟨spanned, hspanned, rfl⟩
    exact lexes_of_tokensFrom hspanned
  · exact fun h => tokensFrom_of_lexes h 0

end ComponentMarkup.Lexer
