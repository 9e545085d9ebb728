import ComponentMarkup.Markup.Reader

/-!
# Texts of markup

The texts that the grammar of `Node` is made of: blanks, names, string literals and brackets, where
they end, and where they stand in a template.
-/

namespace ComponentMarkup

open Text (byteLength isBlank)

variable {q opening closing : Char} {quotes rest template a t b name : List Char} {o : Nat}

/-- The span of a text that stands at an offset. -/
def Span.over (o : Nat) (text : List Char) : Span :=
  ⟨o, o + byteLength text⟩

/-- Any number of blanks. -/
def Blanks (text : List Char) : Prop :=
  ∀ c ∈ text, Text.isBlank c = true

theorem blanks_nil : Blanks [] :=
  fun _ hx => absurd hx List.not_mem_nil

/-- The name of a tag or an attribute. -/
structure IsMarkupName (text : List Char) : Prop where
  start : ∃ c, text.head? = some c ∧ Cursor.isNameStart c = true
  chars : ∀ c ∈ text, Cursor.isNameChar c = true

/-! ## String literals -/

/-- The quotes around string literals. -/
def stringQuotes : List (List Char) :=
  [['"', '"', '"'], ['\'', '\'', '\''], ['"'], ['\'']]

/-- What may stand between quotes: the quotes do not occur in it, apart from characters that a
backslash guards. -/
inductive StringBody (quotes : List Char) : List Char → Prop where
  | nil : StringBody quotes []
  | guarded {c body} : StringBody quotes body → StringBody quotes ('\\' :: c :: body)
  | char {c body} : c ≠ '\\' → ¬ quotes <+: c :: (body ++ quotes) → StringBody quotes body →
      StringBody quotes (c :: body)

/-- A string literal. -/
def IsStringLiteral (text : List Char) : Prop :=
  ∃ quotes ∈ stringQuotes, ∃ body, StringBody quotes body ∧ text = quotes ++ body ++ quotes

theorem eq_of_stringQuotes (h : [q] ∈ stringQuotes) : q = '"' ∨ q = '\'' := by
  simpa [stringQuotes] using h

/-- String quotes are one quote or three of a kind. -/
theorem exists_of_stringQuotes (h : quotes ∈ stringQuotes) :
    ∃ q, [q] ∈ stringQuotes ∧ (quotes = [q] ∨ quotes = [q, q, q]) := by
  simp only [stringQuotes, List.mem_cons, List.not_mem_nil, or_false] at h
  rcases h with rfl | rfl | rfl | rfl
  · exact ⟨'"', by decide, .inr rfl⟩
  · exact ⟨'\'', by decide, .inr rfl⟩
  · exact ⟨'"', by decide, .inl rfl⟩
  · exact ⟨'\'', by decide, .inl rfl⟩

theorem isBlank_of_stringQuotes (h : [q] ∈ stringQuotes) : isBlank q = false := by
  rcases eq_of_stringQuotes h with rfl | rfl <;> decide

theorem not_prefix_of_stringQuotes {x : Char} (hquotes : quotes ∈ stringQuotes)
    (hx : [x] ∉ stringQuotes) : ¬ quotes <+: x :: rest := by
  obtain ⟨q, hq, rfl | rfl⟩ := exists_of_stringQuotes hquotes
  all_goals
    rw [List.cons_prefix_cons]
    rintro ⟨rfl, -⟩
    exact hx hq

/-- Two quotes make a literal of their own only if no third one follows. -/
def EndsBefore (text rest : List Char) : Prop :=
  ∀ quote, [quote] ∈ stringQuotes → text = [quote, quote] → rest.head? ≠ some quote

/-! ## Brackets and nodes -/

/-- The brackets inside of expressions. -/
def groups : List (Rule × Char × Char) :=
  [(.parens, '(', ')'), (.braces, '\x7b', '\x7d'), (.brackets, '[', ']')]

/-- Opening brackets are one byte long. -/
theorem utf8Size_of_group {rule : Rule} (h : (rule, opening, closing) ∈ groups) :
    opening.utf8Size = 1 := by
  have hall : ∀ group ∈ groups, group.2.1.utf8Size = 1 := by decide
  exact hall _ h

/-- A leaf that covers a text at an offset. -/
def Node.leafOver (rule : Rule) (o : Nat) (text : List Char) : Node :=
  .leaf rule (.over o text)

/-- The node of an expression that covers a text at an offset. -/
def Node.exprOver (o : Nat) (text : List Char) (pieces : List Node) : Node :=
  ⟨.expr, .over o text, pieces⟩

/-! ## Places of texts -/

/-- A text stands at an offset of a template. -/
def IsAt (template t : List Char) (o : Nat) : Prop :=
  ∃ front back, template = front ++ t ++ back ∧ byteLength front = o

theorem IsAt.slice? (h : IsAt template t o) :
    Text.slice? template o (o + byteLength t) = some t := by
  obtain ⟨front, back, rfl, rfl⟩ := h
  rw [Text.slice?, if_pos (Nat.le_add_right _ _), List.append_assoc, Text.dropBytes?_append,
    Option.bind_some, Nat.add_sub_cancel_left, Text.takeBytes?_append]

theorem IsAt.part (h : IsAt template (a ++ t ++ b) o) : IsAt template t (o + byteLength a) := by
  obtain ⟨front, back, htext, rfl⟩ := h
  refine ⟨front ++ a, b ++ back, ?_, Text.byteLength_append front a⟩
  rw [htext]
  simp

theorem IsAt.front (h : IsAt template (t ++ b) o) : IsAt template t o :=
  h.part (a := [])

theorem IsAt.back (h : IsAt template (a ++ t) o) : IsAt template t (o + byteLength a) :=
  IsAt.part (b := []) (by rw [List.append_nil]; exact h)

/-- The text inside of brackets stands one byte further. -/
theorem IsAt.inside (h : IsAt template (opening :: t ++ [closing]) o)
    (hsize : opening.utf8Size = 1) : IsAt template t (o + 1) := by
  have hinner : IsAt template t (o + byteLength [opening]) := h.part
  rw [Text.byteLength_cons, hsize] at hinner
  exact hinner

/-! ## Longest runs -/

/-- A text does not go on with a character that has a property. -/
def Halts (p : Char → Bool) (rest : List Char) : Prop :=
  ∀ c, rest.head? = some c → p c = false

section Halts

variable {p : Char → Bool} {t rest : List Char} {c : Char}

theorem halts_nil : Halts p [] :=
  fun _ h => nomatch h

theorem halts_cons : Halts p (c :: rest) ↔ p c = false := by
  refine ⟨fun h => h c rfl, fun h x hx => ?_⟩
  cases hx
  exact h

theorem halts_dropWhile (p : Char → Bool) (l : List Char) : Halts p (l.dropWhile p) := by
  intro c hc
  have hnot := List.head?_dropWhile_not p l
  rw [hc] at hnot
  simpa using hnot

/-- What is put in front of a text decides, unless it is empty. -/
theorem Halts.append (h : Halts p t) (hrest : Halts p rest) : Halts p (t ++ rest) := by
  cases t with
  | nil => exact hrest
  | cons x t => exact halts_cons.mpr (halts_cons.mp h)

theorem Halts.of_append (h : Halts p (t ++ rest)) : Halts p t := by
  cases t with
  | nil => exact halts_nil
  | cons x t => exact halts_cons.mpr (halts_cons.mp h)

theorem takeWhile_append_of_halts (ht : ∀ c ∈ t, p c = true) (h : Halts p rest) :
    (t ++ rest).takeWhile p = t := by
  rw [List.takeWhile_append_of_pos ht]
  cases rest with
  | nil => simp
  | cons x rest => simp [halts_cons.mp h]

theorem dropWhile_append_of_halts (ht : ∀ c ∈ t, p c = true) (h : Halts p rest) :
    (t ++ rest).dropWhile p = rest := by
  rw [List.dropWhile_append_of_pos ht]
  cases rest with
  | nil => rfl
  | cons x rest => simp [halts_cons.mp h]

theorem mem_takeWhile {l : List Char} (h : c ∈ l.takeWhile p) : p c = true :=
  List.all_eq_true.mp List.all_takeWhile c h

theorem ne_nil_of_head? (h : t.head? = some c) : t ≠ [] := by
  rintro rfl
  cases h

end Halts

theorem toNat_of_isNameChar {c : Char} (h : Cursor.isNameChar c = true) :
    0x21 ≤ c.toNat ∧ c.toNat < 0x7f := by
  have hval : c.val.toNat = c.toNat := rfl
  change (((decide (c.val ≥ 'A'.val ∧ c.val ≤ 'Z'.val) || c.val ≥ 'a'.val && c.val ≤ 'z'.val) ||
    (c.val ≥ '0'.val && c.val ≤ '9'.val)) || c == '.' || c == '_' || c == '-') = true at h
  simp only [Bool.or_eq_true, Bool.and_eq_true, decide_eq_true_eq, UInt32.le_iff_toNat_le,
    ge_iff_le, hval, beq_iff_eq] at h
  rcases h with ((h | rfl) | rfl) | rfl
  · have hbounds : 'A'.val.toNat = 65 ∧ 'Z'.val.toNat = 90 ∧ 'a'.val.toNat = 97 ∧
        'z'.val.toNat = 122 ∧ '0'.val.toNat = 48 ∧ '9'.val.toNat = 57 := by decide
    omega
  all_goals decide

theorem isBlank_of_isNameChar {c : Char} (h : Cursor.isNameChar c = true) : isBlank c = false := by
  have hbounds := toNat_of_isNameChar h
  simp only [isBlank, Text.blankRanges, Text.inRanges]
  grind

theorem isNameChar_of_isNameStart {c : Char} (h : Cursor.isNameStart c = true) :
    Cursor.isNameChar c = true := by
  have hletter : c.isAlpha = true := h
  simp [Cursor.isNameChar, Char.isAlphanum, hletter]

theorem Blanks.halts_isNameChar {w : List Char} (hw : Blanks w) (h : Halts Cursor.isNameChar rest) :
    Halts Cursor.isNameChar (w ++ rest) := by
  refine Halts.append ?_ h
  intro c hc
  rw [← Bool.not_eq_true]
  intro hname
  have hblank := hw c (List.mem_of_mem_head? hc)
  rw [isBlank_of_isNameChar hname] at hblank
  cases hblank

theorem IsMarkupName.halts_isBlank (h : IsMarkupName name) : Halts isBlank (name ++ rest) := by
  obtain ⟨c, hc, hstart⟩ := h.start
  obtain ⟨more, rfl⟩ := List.head?_eq_some_iff.mp hc
  exact halts_cons.mpr (isBlank_of_isNameChar (isNameChar_of_isNameStart hstart))

theorem IsMarkupName.ne_nil (h : IsMarkupName name) : name ≠ [] := by
  obtain ⟨c, hc, -⟩ := h.start
  rintro rfl
  cases hc

end ComponentMarkup
