import ComponentMarkup.Proofs.Element.Weaving

/-!
# Dedenting keeps texts balanced

`Dedents b cells cells' b'` says that blanks at the starts of lines were taken away from cells. The
first flag says whether the cells begin at the start of a line, the second one whether they end there.
A line starts at the beginning and after every newline; a blank that is taken away does not end the
start of its line. String literals stay string literals, since quotes are no blanks and a newline
between two characters stays between them, so balanced cells stay balanced.
-/

namespace ComponentMarkup

open Text (byteLength)

/-- Blanks at the starts of lines are taken away from cells. -/
inductive Dedents {α : Type} : Bool → List (Cell Char α) → List (Cell Char α) → Bool → Prop where
  | nil {b} : Dedents b [] [] b
  | keep {b c rest rest' b'} : Dedents (c == '\n') rest rest' b' →
      Dedents b (.own c :: rest) (.own c :: rest') b'
  | gap {b a rest rest' b'} : Dedents false rest rest' b' →
      Dedents b (.gap a :: rest) (.gap a :: rest') b'
  | cut {c rest rest' b'} : Text.isBlank c = true → Dedents true rest rest' b' →
      Dedents true (.own c :: rest) rest' b'

section

variable {α : Type} {cells out : List (Cell Char α)} {t word quotes : List Char}

theorem Dedents.of_append {b b' : Bool} {more : List (Cell Char α)}
    (h : Dedents b (cells ++ more) out b') :
    ∃ cells' more' mid, out = cells' ++ more' ∧ Dedents b cells cells' mid ∧
      Dedents mid more more' b' := by
  induction cells generalizing b out with
  | nil => exact ⟨[], out, b, rfl, .nil, h⟩
  | cons cell cells ih =>
    cases h with
    | keep h =>
      obtain ⟨cells', more', mid, rfl, hcells, hmore⟩ := ih h
      exact ⟨_, more', mid, rfl, .keep hcells, hmore⟩
    | gap h =>
      obtain ⟨cells', more', mid, rfl, hcells, hmore⟩ := ih h
      exact ⟨_, more', mid, rfl, .gap hcells, hmore⟩
    | cut hblank h =>
      obtain ⟨cells', more', mid, rfl, hcells, hmore⟩ := ih h
      exact ⟨cells', more', mid, rfl, .cut hblank hcells, hmore⟩

/-- A character that is no blank is kept. -/
theorem Dedents.of_cons {b b' : Bool} {c : Char} {rest : List (Cell Char α)}
    (hc : Text.isBlank c = false) (h : Dedents b (.own c :: rest) out b') :
    ∃ rest', out = .own c :: rest' ∧ Dedents (c == '\n') rest rest' b' := by
  cases h with
  | keep h => exact ⟨_, rfl, h⟩
  | cut hblank _ =>
    rw [hc] at hblank
    cases hblank

theorem Dedents.of_cons_false {b' : Bool} {c : Char} {rest : List (Cell Char α)}
    (h : Dedents false (.own c :: rest) out b') :
    ∃ rest', out = .own c :: rest' ∧ Dedents (c == '\n') rest rest' b' := by
  cases h with
  | keep h => exact ⟨_, rfl, h⟩

theorem Dedents.head?_of_false {b' : Bool} {cells' : List (Cell Char α)}
    (h : Dedents false cells cells' b') : cells'.head? = cells.head? := by
  cases h <;> rfl

/-! ## String literals -/

/-- Away from the start of a line, a text without newlines that follows now followed before. -/
theorem Dedents.prefix_of_prefix {t' rest : List Char} {b' : Bool} (hword : '\n' ∉ word)
    (h : Dedents false (t.map (.own : Char → Cell Char α)) (t'.map .own) b')
    (hbegins : word <+: t' ++ rest) : word <+: t ++ rest := by
  induction word generalizing t t' with
  | nil => exact List.nil_prefix
  | cons c word ih =>
    simp only [List.mem_cons, not_or] at hword
    cases t with
    | nil =>
      cases t' with
      | nil => exact hbegins
      | cons d t' => cases h
    | cons d t =>
      obtain ⟨rest', hout, h⟩ := h.of_cons_false
      cases t' with
      | nil => cases hout
      | cons d' t' =>
        simp only [List.map_cons, List.cons.injEq, Cell.own.injEq] at hout
        obtain ⟨rfl, rfl⟩ := hout
        rw [List.cons_append, List.cons_prefix_cons] at hbegins ⊢
        obtain ⟨rfl, hbegins⟩ := hbegins
        have hflag : (c == '\n') = false := beq_false_of_ne (Ne.symm hword.1)
        rw [hflag] at h
        exact ⟨rfl, ih hword.2 h hbegins⟩

theorem newline_not_mem_quotes (h : quotes ∈ stringQuotes) : '\n' ∉ quotes := by
  have hall : stringQuotes.all (fun quotes => !quotes.contains '\n') = true := by decide
  simpa using List.all_eq_true.mp hall quotes h

theorem isBlank_of_mem_quotes (h : quotes ∈ stringQuotes) :
    ∀ c ∈ quotes, Text.isBlank c = false := by
  have hall : stringQuotes.all (fun quotes => quotes.all fun c => !Text.isBlank c) = true := by
    decide
  have hquotes := List.all_eq_true.mp hall quotes h
  intro c hc
  simpa using List.all_eq_true.mp hquotes c hc

/-- What stands between quotes may stand there after blanks were taken away. -/
theorem StringBody.dedents {body : List Char} (hquotes : quotes ∈ stringQuotes)
    (hbody : StringBody quotes body) {b b' : Bool} (h : Dedents b (body.map .own) out b') :
    ∃ body', out = body'.map .own ∧ StringBody quotes body' := by
  induction hbody generalizing b out with
  | nil =>
    cases h
    exact ⟨[], rfl, .nil⟩
  | guarded _ ih =>
    obtain ⟨_, rfl, h₁⟩ := h.of_cons (by decide)
    obtain ⟨_, rfl, h₂⟩ := h₁.of_cons_false
    obtain ⟨body', rfl, hbody'⟩ := ih h₂
    exact ⟨_, rfl, .guarded hbody'⟩
  | @char c body hc hfree _ ih =>
    cases h with
    | cut _ h => exact ih h
    | keep h =>
      obtain ⟨body', rfl, hbody'⟩ := ih h
      refine ⟨c :: body', rfl, .char hc ?_ hbody'⟩
      intro hbegins
      apply hfree
      -- the quotes begin with a character that is no newline, so what follows it is as before
      have hnewline := newline_not_mem_quotes hquotes
      cases quotes with
      | nil => exact List.nil_prefix
      | cons q quotes =>
        simp only [List.mem_cons, not_or] at hnewline
        rw [List.cons_prefix_cons] at hbegins ⊢
        obtain ⟨rfl, hbegins⟩ := hbegins
        have hflag : (q == '\n') = false := beq_false_of_ne (Ne.symm hnewline.1)
        rw [hflag] at h
        exact ⟨rfl, h.prefix_of_prefix hnewline.2 hbegins⟩

theorem Dedents.of_nil {b b' : Bool} (h : Dedents b [] out b') : out = [] ∧ b' = b := by
  generalize hcells : ([] : List (Cell Char α)) = cells at h
  cases h with
  | nil => exact ⟨rfl, rfl⟩
  | keep => cases hcells
  | gap => cases hcells
  | cut => cases hcells

/-- A word without blanks is kept, and it does not end at the start of a line. -/
theorem Dedents.of_word (hword : ∀ c ∈ word, Text.isBlank c = false) (hne : word ≠ [])
    {b b' : Bool} (h : Dedents b (word.map .own) out b') : out = word.map .own ∧ b' = false := by
  induction word generalizing b out with
  | nil => exact absurd rfl hne
  | cons c word ih =>
    have hc := hword c List.mem_cons_self
    obtain ⟨rest', rfl, hrest⟩ := h.of_cons hc
    cases word with
    | nil =>
      obtain ⟨rfl, rfl⟩ := hrest.of_nil
      refine ⟨rfl, beq_false_of_ne ?_⟩
      rintro rfl
      exact absurd hc (by decide)
    | cons d word =>
      obtain ⟨rfl, hflag⟩ := ih (fun x hx => hword x (List.mem_cons_of_mem c hx))
        (List.cons_ne_nil d word) hrest
      exact ⟨rfl, hflag⟩

theorem IsStringLiteral.dedents (ht : IsStringLiteral t) {b b' : Bool}
    (h : Dedents b (t.map .own) out b') :
    ∃ t', out = t'.map .own ∧ IsStringLiteral t' ∧ b' = false ∧
      ∀ quote, t' = [quote, quote] → t = [quote, quote] := by
  obtain ⟨quotes, hquotes, body, hbody, rfl⟩ := ht
  have hblank := isBlank_of_mem_quotes hquotes
  have hne : quotes ≠ [] := by
    rintro rfl
    exact absurd hquotes (by decide)
  rw [List.map_append, List.map_append] at h
  obtain ⟨front, last, mid, rfl, hfront, hlast⟩ := h.of_append
  obtain ⟨first, inner, mid', rfl, hfirst, hinner⟩ := hfront.of_append
  obtain ⟨rfl, rfl⟩ := hfirst.of_word hblank hne
  obtain ⟨rfl, rfl⟩ := hlast.of_word hblank hne
  have hhead := hinner.head?_of_false
  obtain ⟨body', rfl, hbody'⟩ := hbody.dedents hquotes hinner
  refine ⟨quotes ++ body' ++ quotes, by simp, ⟨quotes, hquotes, body', hbody', rfl⟩, rfl, ?_⟩
  intro quote htwo
  -- the first character after the quotes is kept, so only an empty body becomes empty
  cases body' with
  | nil =>
    cases body with
    | nil => exact htwo
    | cons c body => cases hhead
  | cons c body' =>
    cases quotes with
    | nil => exact absurd rfl hne
    | cons q quotes =>
      have hlen := congrArg List.length htwo
      simp only [List.length_append, List.length_cons, List.length_nil] at hlen
      omega

/-! ## Balanced cells -/

theorem isBlank_of_mem_groups {rule : Rule} {opening closing : Char}
    (h : (rule, opening, closing) ∈ groups) :
    Text.isBlank opening = false ∧ Text.isBlank closing = false := by
  simp only [groups, List.mem_cons, Prod.mk.injEq, List.not_mem_nil, or_false] at h
  rcases h with ⟨-, rfl, rfl⟩ | ⟨-, rfl, rfl⟩ | ⟨-, rfl, rfl⟩ <;> exact ⟨rfl, rfl⟩

theorem Balanced.dedents (hcells : Balanced cells) {b b' : Bool} (h : Dedents b cells out b') :
    Balanced out := by
  induction hcells generalizing b out b' with
  | nil =>
    cases h
    exact .nil
  | plain hc _ ih =>
    cases h with
    | keep h => exact .plain hc (ih h)
    | cut _ h => exact ih h
  | string ht hends _ ih =>
    obtain ⟨front, rest, mid, rfl, hfront, hrest⟩ := h.of_append
    obtain ⟨t', rfl, ht', rfl, htwo⟩ := ht.dedents hfront
    refine .string ht' ?_ (ih hrest)
    intro quote hquote htwo'
    rw [hrest.head?_of_false]
    exact hends quote hquote (htwo quote htwo')
  | gap _ ih =>
    cases h with
    | gap h => exact .gap (ih h)
  | group hgroup _ _ ih₁ ih₂ =>
    obtain ⟨hopening, hclosing⟩ := isBlank_of_mem_groups hgroup
    obtain ⟨rest, rfl, hrest⟩ := Dedents.of_cons hopening h
    obtain ⟨inner, after, mid, rfl, hinner, hafter⟩ := hrest.of_append
    obtain ⟨after, rfl, hafter'⟩ := hafter.of_cons hclosing
    exact .group hgroup (ih₁ hinner) (ih₂ hafter')

end

end ComponentMarkup
