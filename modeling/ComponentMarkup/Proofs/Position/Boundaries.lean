import ComponentMarkup.Proofs.Markup.Grammar

/-!
# Boundaries between characters

A byte offset is a boundary of a text if no character stands on both sides of it. A span is whole if it
has boundaries at both ends, so exactly the whole spans cover a text.
-/

namespace ComponentMarkup

namespace Text

theorem eq_nil_of_byteLength_zero {t : List Char} (h : byteLength t = 0) : t = [] := by
  cases t with
  | nil => rfl
  | cons c t =>
    have hpos := c.utf8Size_pos
    rw [Text.byteLength_cons] at h
    omega

/-- A shorter beginning of a text is a beginning of a longer one. -/
theorem exists_append_of_byteLength_le {front front' back back' : List Char}
    (h : front ++ back = front' ++ back') (hlen : byteLength front ≤ byteLength front') :
    ∃ mid, front' = front ++ mid ∧ back = mid ++ back' := by
  rcases List.append_eq_append_iff.mp h with ⟨mid, hfront, hback⟩ | ⟨mid, hfront, hback⟩
  · exact ⟨mid, hfront, hback⟩
  · -- the other way round nothing is left over
    rw [hfront, Text.byteLength_append] at hlen
    obtain rfl : mid = [] := eq_nil_of_byteLength_zero (by omega)
    exact ⟨[], by rw [hfront]; simp, by rw [hback]; rfl⟩

end Text

section

open Text (byteLength)

variable {template text t u : List Char} {o p : Nat}

theorem IsAt.append_right (h : IsAt text t o) (more : List Char) : IsAt (text ++ more) t o := by
  obtain ⟨front, back, rfl, rfl⟩ := h
  exact ⟨front, back ++ more, by simp, rfl⟩

theorem IsAt.trans (h : IsAt template text o) (ht : IsAt text t p) : IsAt template t (o + p) := by
  obtain ⟨front, back, rfl, rfl⟩ := ht
  exact h.part

theorem isAt_append (text t : List Char) : IsAt (text ++ t) t (byteLength text) :=
  ⟨text, [], by simp, rfl⟩

theorem IsAt.append (ht : IsAt text t o) (hu : IsAt text u (o + byteLength t)) :
    IsAt text (t ++ u) o := by
  obtain ⟨front, back, htext, rfl⟩ := ht
  obtain ⟨front', back', htext', hlen⟩ := hu
  rw [← Text.byteLength_append] at hlen
  have hsame : front' ++ (u ++ back') = front ++ t ++ back := by rw [← htext, htext', List.append_assoc]
  obtain ⟨mid, hmid, hback⟩ := Text.exists_append_of_byteLength_le hsame (Nat.le_of_eq hlen)
  rw [hmid, Text.byteLength_append] at hlen
  obtain rfl : mid = [] := Text.eq_nil_of_byteLength_zero (by omega)
  refine ⟨front, back', ?_, rfl⟩
  rw [htext, ← List.nil_append back, ← hback, ← List.append_assoc, ← List.append_assoc]

end

namespace Text

/-- An offset of a text at which no character is split: one starts there, or the text ends. -/
def IsBoundary (text : List Char) (o : Nat) : Prop :=
  ∃ front back, text = front ++ back ∧ byteLength front = o

section Boundaries

variable {text t : List Char} {o p : Nat}

theorem exists_of_dropBytes? {back : List Char} (h : dropBytes? o text = some back) :
    ∃ front, text = front ++ back ∧ byteLength front = o := by
  fun_induction dropBytes? o text with
  | case1 text =>
    cases h
    exact ⟨[], rfl, rfl⟩
  | case2 => cases h
  | case3 n c text hc ih =>
    obtain ⟨front, rfl, hlen⟩ := ih h
    refine ⟨c :: front, rfl, ?_⟩
    rw [byteLength_cons, hlen]
    omega
  | case4 => cases h

/-- A text can be cut exactly at its boundaries. -/
theorem isBoundary_iff : IsBoundary text o ↔ (dropBytes? o text).isSome := by
  constructor
  · rintro ⟨front, back, rfl, rfl⟩
    rw [dropBytes?_append]
    rfl
  · intro h
    obtain ⟨back, hback⟩ := Option.isSome_iff_exists.mp h
    obtain ⟨front, htext, hlen⟩ := exists_of_dropBytes? hback
    exact ⟨front, back, htext, hlen⟩

instance : Decidable (IsBoundary text o) :=
  decidable_of_iff _ isBoundary_iff.symm

theorem IsBoundary.le_byteLength (h : IsBoundary text o) : o ≤ byteLength text := by
  obtain ⟨front, back, rfl, rfl⟩ := h
  rw [byteLength_append]
  exact Nat.le_add_right _ _

theorem isBoundary_byteLength (text : List Char) : IsBoundary text (byteLength text) :=
  ⟨text, [], (List.append_nil text).symm, rfl⟩

theorem IsBoundary.exists_isAt (ho : IsBoundary text o) (hp : IsBoundary text p) (hle : o ≤ p) :
    ∃ t, IsAt text t o ∧ p = o + byteLength t := by
  obtain ⟨front, back, htext, rfl⟩ := ho
  obtain ⟨front', back', htext', rfl⟩ := hp
  obtain ⟨t, rfl, rfl⟩ := exists_append_of_byteLength_le (htext.symm.trans htext') hle
  exact ⟨t, ⟨front, back', by rw [htext', List.append_assoc], rfl⟩, byteLength_append front t⟩

/-- Where a text stands in another one, its boundaries are boundaries there. -/
theorem IsBoundary.of_isAt (h : IsAt text t o) (hp : IsBoundary t p) : IsBoundary text (o + p) := by
  obtain ⟨front, back, rfl, rfl⟩ := h
  obtain ⟨t, u, rfl, rfl⟩ := hp
  exact ⟨front ++ t, u ++ back, by simp, byteLength_append front t⟩

/-- A boundary inside of a part of a text is a boundary of that part. -/
theorem IsBoundary.sub_of_isAt (h : IsAt text t o) (hp : IsBoundary text p) (hle : o ≤ p)
    (hend : p ≤ o + byteLength t) : IsBoundary t (p - o) := by
  obtain ⟨front, back, rfl, rfl⟩ := h
  obtain ⟨front', back', htext, rfl⟩ := hp
  rw [List.append_assoc] at htext
  obtain ⟨u, rfl, hrest⟩ := exists_append_of_byteLength_le htext hle
  rw [byteLength_append] at hend ⊢
  obtain ⟨v, rfl, -⟩ := exists_append_of_byteLength_le hrest.symm (by omega)
  exact ⟨u, v, rfl, (Nat.add_sub_cancel_left _ _).symm⟩

theorem IsBoundary.of_isAt_start (h : IsAt text t o) : IsBoundary text o := by
  obtain ⟨front, back, rfl, rfl⟩ := h
  exact ⟨front, t ++ back, List.append_assoc _ _ _, rfl⟩

theorem IsBoundary.of_isAt_stop (h : IsAt text t o) : IsBoundary text (o + byteLength t) :=
  .of_isAt h (isBoundary_byteLength t)

theorem exists_of_takeBytes? {n : Nat} (h : takeBytes? n text = some t) :
    ∃ back, text = t ++ back ∧ byteLength t = n := by
  fun_induction takeBytes? n text generalizing t with
  | case1 text =>
    cases h
    exact ⟨text, rfl, rfl⟩
  | case2 => cases h
  | case3 n c text hc ih =>
    obtain ⟨t, ht, rfl⟩ := Option.map_eq_some_iff.mp h
    obtain ⟨back, rfl, hlen⟩ := ih ht
    refine ⟨back, rfl, ?_⟩
    rw [byteLength_cons, hlen]
    omega
  | case4 => cases h

theorem isAt_of_slice? {start stop : Nat} (h : slice? text start stop = some t) :
    IsAt text t start ∧ stop = start + byteLength t := by
  unfold slice? at h
  split at h
  · next hle =>
    obtain ⟨back, hdrop, htake⟩ := Option.bind_eq_some_iff.mp h
    obtain ⟨front, rfl, rfl⟩ := exists_of_dropBytes? hdrop
    obtain ⟨back, rfl, hlen⟩ := exists_of_takeBytes? htake
    exact ⟨⟨front, back, (List.append_assoc _ _ _).symm, rfl⟩, by omega⟩
  · cases h

end Boundaries

end Text

/-- A span that covers a text: it splits no character and does not run backwards. -/
structure Span.IsWhole (text : List Char) (span : Span) : Prop where
  ordered : span.start ≤ span.stop
  start : Text.IsBoundary text span.start
  stop : Text.IsBoundary text span.stop

namespace Span.IsWhole

variable {text t : List Char} {span : Span} {o : Nat}

theorem of_isAt (h : IsAt text t o) : (Span.over o t).IsWhole text :=
  ⟨Nat.le_add_right _ _, .of_isAt_start h, .of_isAt_stop h⟩

/-- A whole span covers the text that stands there. -/
theorem slice? (h : span.IsWhole text) :
    ∃ t, IsAt text t span.start ∧ span = .over span.start t ∧
      Text.slice? text span.start span.stop = some t := by
  obtain ⟨t, hat, hstop⟩ := h.start.exists_isAt h.stop h.ordered
  obtain ⟨start, stop⟩ := span
  obtain rfl : stop = start + Text.byteLength t := hstop
  exact ⟨t, hat, rfl, hat.slice?⟩

theorem iff_slice? : span.IsWhole text ↔ (Text.slice? text span.start span.stop).isSome := by
  constructor
  · intro h
    obtain ⟨t, -, -, hslice⟩ := h.slice?
    rw [hslice]
    rfl
  · intro h
    obtain ⟨t, hslice⟩ := Option.isSome_iff_exists.mp h
    obtain ⟨hat, hstop⟩ := Text.isAt_of_slice? hslice
    have hspan : span = .over span.start t := by
      obtain ⟨start, stop⟩ := span
      exact congrArg (Span.mk start) hstop
    rw [hspan]
    exact .of_isAt hat

end Span.IsWhole

theorem Text.byteLength_enclosed (t : List Char) :
    byteLength ('(' :: t ++ [')']) = byteLength t + 2 := by
  rw [byteLength_append]
  show 1 + byteLength t + 1 = _
  omega

/-- A span over a part of a text in parentheses. -/
def Span.IsEnclosed (text : List Char) (span : Span) : Prop :=
  ∃ o body, IsAt text ('(' :: body ++ [')']) o ∧ span = .over o ('(' :: body ++ [')'])

end ComponentMarkup
