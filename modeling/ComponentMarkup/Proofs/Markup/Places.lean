import ComponentMarkup.Proofs.Markup.Grammar

/-!
# Places of a template

A cursor passes over texts, from one place of a template to another. An error of the reader points at
the next character or at the text between two places where the reader was, so its span is whole, and the
text under it is what the fault is about: `MarkupError.Fits`.
-/

namespace ComponentMarkup

open Text (byteLength isBlank)

namespace Cursor

variable {c c' : Cursor} {t : List Char}

/-- The second place is reached from the first one by passing over a text. -/
structure Passes (c : Cursor) (t : List Char) (c' : Cursor) : Prop where
  rest : c.rest = t ++ c'.rest
  offset : c'.offset = c.offset + byteLength t

theorem Passes.refl (c : Cursor) : c.Passes [] c :=
  ⟨rfl, by simp⟩

theorem Passes.trans {c'' : Cursor} {u : List Char} (h : c.Passes t c') (h' : c'.Passes u c'') :
    c.Passes (t ++ u) c'' := by
  refine ⟨?_, ?_⟩
  · rw [h.rest, h'.rest, List.append_assoc]
  · rw [h'.offset, h.offset, Text.byteLength_append, Nat.add_assoc]

/-- The span between two places covers the text between them. -/
theorem Passes.span (h : c.Passes t c') : (⟨c.offset, c'.offset⟩ : Span) = .over c.offset t := by
  rw [h.offset, Span.over]

theorem passes_takeWhile (c : Cursor) (p : Char → Bool) :
    c.Passes (c.rest.takeWhile p) (c.takeWhile p).2 :=
  ⟨List.takeWhile_append_dropWhile.symm, rfl⟩

theorem passes_skipBlanks (c : Cursor) : ∃ w, Blanks w ∧ c.Passes w c.skipBlanks := by
  refine ⟨c.rest.takeWhile Text.isBlank, ?_, c.passes_takeWhile Text.isBlank⟩
  intro x hx
  exact mem_takeWhile hx

theorem passes_consume? {text : List Char} (h : c.consume? text = some c') : c.Passes text c' := by
  unfold consume? at h
  split at h
  · next hstarts =>
    cases h
    have hbegins : text <+: c.rest := List.isPrefixOf_iff_prefix.mp hstarts
    exact ⟨(List.prefix_iff_eq_append.mp hbegins).symm, rfl⟩
  · cases h

theorem passes_advance {x : Char} (h : c.peek? = some x) : c.Passes [x] c.advance := by
  obtain ⟨offset, rest⟩ := c
  obtain ⟨rest, rfl⟩ : ∃ more, rest = x :: more := List.head?_eq_some_iff.mp h
  exact ⟨rfl, rfl⟩

theorem passes_readName? {name : List Char} (h : c.readName? = some (name, c')) :
    IsMarkupName name ∧ c.Passes name c' := by
  unfold readName? at h
  split at h
  · next hstart =>
    cases h
    refine ⟨⟨?_, ?_⟩, c.passes_takeWhile isNameChar⟩
    · obtain ⟨x, hx, hletter⟩ := (Option.any_eq_true _ _).mp hstart
      obtain ⟨rest, hrest⟩ : ∃ rest, c.rest = x :: rest := List.head?_eq_some_iff.mp hx
      have hchar := isNameChar_of_isNameStart hletter
      exact ⟨x, by simp [hrest, hchar], hletter⟩
    · intro x hx
      exact mem_takeWhile hx
  · cases h

section Places

variable {c c' : Cursor} {t u : List Char}

theorem Passes.split (h : c.Passes (t ++ u) c') : ∃ mid, c.Passes t mid ∧ mid.Passes u c' := by
  refine ⟨⟨c.offset + byteLength t, u ++ c'.rest⟩, ⟨?_, rfl⟩, rfl, ?_⟩
  · rw [h.rest, List.append_assoc]
  · rw [h.offset, Text.byteLength_append, Nat.add_assoc]

theorem Passes.unique {c'' : Cursor} (h : c.Passes t c') (h' : c.Passes t c'') : c' = c'' := by
  obtain ⟨o, rest⟩ := c'
  obtain ⟨o', rest'⟩ := c''
  have hrest : rest = rest' := List.append_cancel_left (h.rest.symm.trans h'.rest)
  have hoffset : o = o' := h.offset.trans h'.offset.symm
  rw [hrest, hoffset]

theorem Passes.le (h : c.Passes t c') : c'.rest.length ≤ c.rest.length := by
  rw [h.rest, List.length_append]
  omega

theorem Passes.lt (h : c.Passes t c') (ht : t ≠ []) : c'.rest.length < c.rest.length := by
  have hpos := List.length_pos_iff.mpr ht
  rw [h.rest, List.length_append]
  omega

theorem Passes.takeWhile {p : Char → Bool} (h : c.Passes t c') (ht : ∀ x ∈ t, p x = true)
    (hhalts : Halts p c'.rest) : c.takeWhile p = (t, c') := by
  have hrun : c.rest.takeWhile p = t := by
    rw [h.rest]
    exact takeWhile_append_of_halts ht hhalts
  have hpass := c.passes_takeWhile p
  rw [hrun] at hpass
  exact Prod.ext hrun (hpass.unique h)

theorem Passes.skipBlanks (h : c.Passes t c') (ht : Blanks t) (hhalts : Halts isBlank c'.rest) :
    c.skipBlanks = c' := by
  rw [Cursor.skipBlanks, h.takeWhile ht hhalts]

theorem skipBlanks_of_halts (h : Halts isBlank c.rest) : c.skipBlanks = c :=
  (Passes.refl c).skipBlanks (fun _ hx => nomatch hx) h

theorem Passes.advance {x : Char} (h : c.Passes [x] c') : c.advance = c' := by
  have hpeek : c.peek? = some x := by
    rw [peek?, h.rest]
    rfl
  exact (passes_advance hpeek).unique h

theorem Passes.consume? (h : c.Passes t c') : c.consume? t = some c' := by
  have hstarts : c.startsWith t = true :=
    List.isPrefixOf_iff_prefix.mpr ⟨c'.rest, h.rest.symm⟩
  cases hconsume : c.consume? t with
  | none => simp [Cursor.consume?, hstarts] at hconsume
  | some c'' => rw [(passes_consume? hconsume).unique h]

theorem Passes.readName? (h : c.Passes t c') (ht : IsMarkupName t)
    (hhalts : Halts isNameChar c'.rest) : c.readName? = some (t, c') := by
  obtain ⟨x, hx, hstart⟩ := ht.start
  have hpeek : c.peek? = some x := by
    obtain ⟨more, rfl⟩ := List.head?_eq_some_iff.mp hx
    rw [peek?, h.rest]
    rfl
  rw [Cursor.readName?, hpeek, if_pos (by simpa using hstart), h.takeWhile ht.chars hhalts]

theorem consume?_eq_none_iff : c.consume? t = none ↔ ¬ t <+: c.rest := by
  rw [← List.isPrefixOf_iff_prefix, Cursor.consume?, startsWith]
  split <;> simp_all

theorem readName?_eq_none_iff : c.readName? = none ↔ Halts isNameStart c.rest := by
  rw [Cursor.readName?]
  constructor
  · intro h x hx
    rw [← Bool.not_eq_true]
    intro hstart
    have hpeek : c.peek? = some x := hx
    rw [hpeek, if_pos (by simpa using hstart)] at h
    cases h
  · intro h
    rw [if_neg]
    intro hany
    obtain ⟨x, hx, hstart⟩ := (Option.any_eq_true _ _).mp hany
    rw [h x hx] at hstart
    cases hstart

theorem halts_of_readName? {name : List Char} (h : c.readName? = some (name, c')) :
    Halts isNameChar c'.rest := by
  unfold Cursor.readName? at h
  split at h
  · cases h
    exact halts_dropWhile isNameChar c.rest
  · cases h

theorem halts_skipBlanks (c : Cursor) : Halts isBlank c.skipBlanks.rest :=
  halts_dropWhile isBlank c.rest

end Places

/-- A place of a template. -/
def IsIn (c : Cursor) (template : List Char) : Prop :=
  ∃ front, template = front ++ c.rest ∧ c.offset = byteLength front

theorem IsIn.passes {template : List Char} (h : c.IsIn template) (hpass : c.Passes t c') :
    c'.IsIn template := by
  obtain ⟨front, htext, hoffset⟩ := h
  refine ⟨front ++ t, ?_, ?_⟩
  · rw [htext, hpass.rest, List.append_assoc]
  · rw [hpass.offset, hoffset, Text.byteLength_append]

end Cursor

/-- Two beginnings of a text are the same if they have the same length. -/
theorem eq_of_append_eq_of_byteLength {front front' back back' : List Char}
    (h : front ++ back = front' ++ back') (hlen : byteLength front = byteLength front') :
    front = front' ∧ back = back' := by
  induction front generalizing front' with
  | nil =>
    cases front' with
    | nil => exact ⟨rfl, h⟩
    | cons c front' =>
      have hpos := c.utf8Size_pos
      simp only [Text.byteLength_nil, Text.byteLength_cons] at hlen
      omega
  | cons c front ih =>
    cases front' with
    | nil =>
      have hpos := c.utf8Size_pos
      simp only [Text.byteLength_nil, Text.byteLength_cons] at hlen
      omega
    | cons c' front' =>
      simp only [List.cons_append, List.cons.injEq] at h
      obtain ⟨rfl, h⟩ := h
      simp only [Text.byteLength_cons, Nat.add_left_cancel_iff] at hlen
      obtain ⟨rfl, hback⟩ := ih h hlen
      exact ⟨rfl, hback⟩

theorem Cursor.IsIn.eq_of_offset {template : List Char} {c c' : Cursor} (h : c.IsIn template)
    (h' : c'.IsIn template) (ho : c.offset = c'.offset) : c = c' := by
  obtain ⟨front, htext, hc⟩ := h
  obtain ⟨front', htext', hc'⟩ := h'
  have hsame := eq_of_append_eq_of_byteLength (htext.symm.trans htext') (by rw [← hc, ← hc', ho])
  obtain ⟨offset, rest⟩ := c
  obtain ⟨offset', rest'⟩ := c'
  cases ho
  cases hsame.2
  rfl

/-! ## Errors -/

/-- What an error with a fault points at: the text under its span and the text after it. -/
def MarkupFault.Shows : MarkupFault → List Char → List Char → Prop
  | .expected _ found, t, rest => t = found.toList ∧ (found = none → rest = [])
  | .unclosedTag name, t, _ => ∃ w attrs, Blanks w ∧ t = '<' :: w ++ name.toList ++ attrs ++ ['>']
  | .mismatchedTag opened closed, t, _ => opened ≠ closed ∧
      ∃ u u', Blanks u ∧ Blanks u' ∧ t = '<' :: '/' :: u ++ closed.toList ++ u' ++ ['>']
  | .unterminatedString, t, rest => rest = [] ∧ ∃ quote, [quote] ∈ stringQuotes ∧ t.head? = some quote
  | .unclosedDelimiter bracket, t, _ => t = [bracket]
  | .trailingContent, t, rest => rest = [] ∧ t ≠ []
  | .malformed _, _, _ => False

/-- An error points at the part of a template that its fault is about. -/
def MarkupError.Fits (template : List Char) (e : MarkupError) : Prop :=
  ∃ front t rest, template = front ++ t ++ rest ∧ e.span = .over (byteLength front) t ∧
    e.fault.Shows t rest

section Errors

variable {template t : List Char} {c c' : Cursor} {fault : MarkupFault}

/-- An error about the text between two places. -/
theorem Cursor.IsIn.fits (h : c.IsIn template) (hpass : c.Passes t c')
    (hshows : fault.Shows t c'.rest) :
    MarkupError.Fits template ⟨fault, ⟨c.offset, c'.offset⟩⟩ := by
  obtain ⟨front, htext, hoffset⟩ := h
  refine ⟨front, t, c'.rest, ?_, ?_, hshows⟩
  · rw [htext, hpass.rest, List.append_assoc]
  · rw [← hoffset]
    exact hpass.span

/-- An error about the next character, or about the end of the template. -/
theorem Cursor.IsIn.fits_here (h : c.IsIn template) {need : MarkupNeed} :
    MarkupError.Fits template ⟨.expected need c.peek?, c.here⟩ := by
  cases hpeek : c.peek? with
  | none =>
    have hhere : c.here = ⟨c.offset, c.offset⟩ := by
      rw [here, hpeek]
      rfl
    rw [hhere]
    exact h.fits (.refl c) ⟨rfl, fun _ => List.head?_eq_none_iff.mp hpeek⟩
  | some x =>
    have hpass : c.Passes [x] c.advance := passes_advance hpeek
    have hhere : c.here = ⟨c.offset, c.advance.offset⟩ := by
      rw [here, hpeek, hpass.offset]
      rfl
    rw [hhere]
    exact h.fits hpass ⟨rfl, fun hnone => nomatch hnone⟩

/-- A text ends where it did, however much of it was passed over. -/
theorem Cursor.Passes.stop (h : c.Passes t c') : c'.stop = c.stop := by
  rw [Cursor.stop, Cursor.stop, h.offset, h.rest, Text.byteLength_append, Nat.add_assoc]

/-- An error about all that is left of the template. -/
theorem Cursor.IsIn.fits_rest (h : c.IsIn template) (hshows : fault.Shows c.rest []) :
    MarkupError.Fits template ⟨fault, ⟨c.offset, c.stop⟩⟩ := by
  have hpass : c.Passes c.rest ⟨c.stop, []⟩ := ⟨(List.append_nil _).symm, rfl⟩
  exact h.fits hpass hshows

end Errors

end ComponentMarkup
