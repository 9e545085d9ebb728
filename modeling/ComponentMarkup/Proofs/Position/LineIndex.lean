import ComponentMarkup.Position.LineIndex
import ComponentMarkup.Proofs.Position.Boundaries
import Mathlib.Data.Nat.Count
import Mathlib.Data.Prod.Lex
import Mathlib.Order.Interval.Set.Defs

/-!
# Positions of offsets

The newlines before an offset give its position: their number is the line, and the distance from the
end of the last one is the column. So no two offsets of a text share a position, and positions follow
each other as the offsets do.
-/

namespace ComponentMarkup

open Text (byteLength)

variable {text t : List Char} {a b o p s : Nat}

instance : Decidable (IsAt text t o) :=
  decidable_of_iff (Text.slice? text o (o + byteLength t) = some t)
    ⟨fun h => (Text.isAt_of_slice? h).1, IsAt.slice?⟩

namespace LineColumn

/-- Positions are compared by line, and on one line by column. -/
def key (x : LineColumn) : Lex (Nat × Nat) :=
  toLex (x.line, x.column)

/-- The position of an offset: as many newlines stand before the offset as the line says, and the
column is the distance from the end of the last of them, or from the start of the text. -/
structure Locates (text : List Char) (p : Nat) (x : LineColumn) : Prop where
  line : x.line = Nat.count (IsAt text ['\n']) p
  column : ∃ start, (start = 0 ∨ ∃ o, IsAt text ['\n'] o ∧ start = o + 1) ∧
    start + x.column = p ∧ ∀ o, start ≤ o → o < p → ¬ IsAt text ['\n'] o

/-- A later offset stands on a later line, or further right on the same line. -/
theorem Locates.key_lt {x y : LineColumn} (hx : x.Locates text a) (hy : y.Locates text b)
    (h : a < b) : x.key < y.key := by
  obtain ⟨start, -, hcolumn, hclear⟩ := hx.column
  obtain ⟨start', hstart', hcolumn', -⟩ := hy.column
  have hline : x.line ≤ y.line := by
    rw [hx.line, hy.line]
    exact Nat.count_monotone _ h.le
  refine Prod.Lex.toLex_lt_toLex.mpr ((Nat.lt_or_eq_of_le hline).imp_right fun hsame => ⟨hsame, ?_⟩)
  -- no newline stands between offsets of one line, so the line starts no later for `b`
  have hle : start' ≤ start := by
    obtain rfl | ⟨o, ho, rfl⟩ := hstart'
    · exact Nat.zero_le start
    · have hoa : o < a := by
        by_contra hao
        have hlt := (Nat.count_monotone (IsAt text ['\n']) (not_lt.mp hao)).trans_lt
          (Nat.count_strict_mono ho (show o < b by omega))
        rw [← hx.line, ← hy.line] at hlt
        exact absurd hsame hlt.ne
      by_contra hso
      exact hclear o (by omega) hoa ho
  show x.column < y.column
  omega

end LineColumn

namespace LineIndex

/-! ## Line starts -/

/-- A line starts where a newline ends. -/
theorem mem_startsAfter : s ∈ startsAfter o text ↔ ∃ q, IsAt text ['\n'] q ∧ s = o + q + 1 := by
  induction text generalizing o with
  | nil =>
    refine iff_of_false List.not_mem_nil ?_
    rintro ⟨q, ⟨front, back, h, -⟩, -⟩
    simp at h
  | cons c text ih =>
    have hcons : s ∈ startsAfter o (c :: text) ↔
        c = '\n' ∧ s = o + 1 ∨ s ∈ startsAfter (o + c.utf8Size) text := by
      rw [startsAfter]
      split
      · next hc =>
        subst hc
        exact List.mem_cons.trans (or_congr_left (by simp; rfl))
      · next hc => simp [hc]
    rw [hcons, ih]
    constructor
    · rintro (⟨rfl, rfl⟩ | ⟨q, ⟨front, back, rfl, rfl⟩, rfl⟩)
      · exact ⟨0, ⟨[], text, rfl, rfl⟩, rfl⟩
      · exact ⟨_, ⟨c :: front, back, rfl, rfl⟩, by rw [Text.byteLength_cons]; omega⟩
    · rintro ⟨q, ⟨front, back, h, rfl⟩, rfl⟩
      cases front with
      | nil => exact .inl ⟨(List.cons.inj h).1, rfl⟩
      | cons d front =>
        obtain ⟨rfl, rfl⟩ := List.cons.inj h
        exact .inr ⟨_, ⟨front, back, rfl, rfl⟩, by rw [Text.byteLength_cons]; omega⟩

theorem pairwise_startsAfter : (startsAfter o text).Pairwise (· < ·) := by
  induction text generalizing o with
  | nil => exact .nil
  | cons c text ih =>
    rw [startsAfter]
    split
    · refine List.pairwise_cons.mpr ⟨fun s hs => ?_, ih⟩
      obtain ⟨q, -, rfl⟩ := mem_startsAfter.mp hs
      omega
    · exact ih

theorem takeWhile_eq_filter {l : List Nat} (h : l.Pairwise (· < ·)) :
    l.takeWhile (· ≤ p) = l.filter (· ≤ p) := by
  induction l with
  | nil => rfl
  | cons x l ih =>
    obtain ⟨hx, hl⟩ := List.pairwise_cons.mp h
    rw [List.takeWhile_cons, List.filter_cons, ih hl]
    split
    · rfl
    · next hxp =>
      rw [eq_comm, List.filter_eq_nil_iff]
      intro y hy
      have hxy := hx y hy
      simp only [decide_eq_true_eq] at hxp ⊢
      omega

/-! ## Positions -/

/-- The line starts that an offset has passed. -/
def passed (text : List Char) (p : Nat) : List Nat :=
  (ofText text).laterStarts.takeWhile (· ≤ p)

theorem pairwise_passed : (passed text p).Pairwise (· < ·) :=
  pairwise_startsAfter.sublist (List.takeWhile_sublist _)

theorem mem_passed : s ∈ passed text p ↔ ∃ o, o < p ∧ IsAt text ['\n'] o ∧ o + 1 = s := by
  rw [passed, ofText, takeWhile_eq_filter pairwise_startsAfter, List.mem_filter, mem_startsAfter]
  simp only [decide_eq_true_eq, Nat.zero_add]
  constructor
  · rintro ⟨⟨o, ho, rfl⟩, hlt⟩
    exact ⟨o, hlt, ho, rfl⟩
  · rintro ⟨o, hlt, ho, rfl⟩
    exact ⟨⟨o, ho, rfl⟩, hlt⟩

theorem length_passed : (passed text p).length = Nat.count (IsAt text ['\n']) p := by
  have hends : (passed text p).toFinset =
      ((Finset.range p).filter (IsAt text ['\n'])).image (· + 1) := by
    ext s
    simp only [List.mem_toFinset, mem_passed, Finset.mem_image, Finset.mem_filter, Finset.mem_range,
      and_assoc]
  rw [← List.toFinset_card_of_nodup (pairwise_passed.imp Nat.ne_of_lt), hends,
    Finset.card_image_of_injective _ (add_left_injective 1), Nat.count_eq_card_filter_range]

/-- The last start that was passed ends the last newline before the offset. -/
theorem locates_passed (text : List Char) (p : Nat) :
    LineColumn.Locates text p ⟨(passed text p).length, p - (passed text p).getLast?.getD 0⟩ := by
  refine ⟨length_passed, ?_⟩
  have hmem : ∀ o, o < p → IsAt text ['\n'] o → o + 1 ∈ passed text p :=
    fun o hop ho => mem_passed.mpr ⟨o, hop, ho, rfl⟩
  cases hlast : (passed text p).getLast? with
  | none =>
    refine ⟨0, .inl rfl, Nat.zero_add p, fun o _ hop ho => ?_⟩
    rw [List.getLast?_eq_none_iff.mp hlast] at hmem
    exact List.not_mem_nil (hmem o hop ho)
  | some start =>
    obtain ⟨q, hqp, hq, rfl⟩ := mem_passed.mp (List.mem_of_getLast? hlast)
    refine ⟨q + 1, .inr ⟨q, hq, rfl⟩, Nat.add_sub_of_le hqp, fun o hqo hop ho => ?_⟩
    -- the starts are in order, so none is after the last
    obtain ⟨before, hsplit⟩ := List.getLast?_eq_some_iff.mp hlast
    have horder : (passed text p).Pairwise (· < ·) := pairwise_passed
    rw [hsplit, List.pairwise_append] at horder
    have hstart := hmem o hop ho
    rw [hsplit, List.mem_append, List.mem_singleton] at hstart
    obtain hstart | hstart := hstart
    · have hlt := horder.2.2 _ hstart _ List.mem_cons_self
      omega
    · omega

/-- The index of a text gives every offset its position, where an offset past the end counts as the
end. Positions in the text are distinct and grow with the offset. No line starts past the end, so the
index needs no wider numbers than the length of the text. -/
theorem position_exact (text : List Char) :
    (∀ offset, ((ofText text).position offset).Locates text (min offset (byteLength text))) ∧
      Set.InjOn (ofText text).position (Set.Iic (byteLength text)) ∧
      StrictMonoOn (fun offset => ((ofText text).position offset).key) (Set.Iic (byteLength text)) ∧
      Monotone (fun offset => ((ofText text).position offset).key) ∧
      ∀ start ∈ (ofText text).laterStarts, start ≤ byteLength text := by
  have hlocates : ∀ offset,
      ((ofText text).position offset).Locates text (min offset (byteLength text)) :=
    fun offset => locates_passed text (min offset (byteLength text))
  have hmono : StrictMonoOn (fun offset => ((ofText text).position offset).key)
      (Set.Iic (byteLength text)) := by
    intro a ha b hb hab
    refine (hlocates a).key_lt (hlocates b) ?_
    rwa [min_eq_left ha, min_eq_left hb]
  refine ⟨hlocates, fun a ha b hb h => ?_, hmono, fun a b hab => ?_, fun start hstart => ?_⟩
  · exact hmono.injOn ha hb (congrArg LineColumn.key h)
  · -- past the end all positions are the same
    obtain hlt | heq := (min_le_min_right (byteLength text) hab).lt_or_eq
    · exact ((hlocates a).key_lt (hlocates b) hlt).le
    · have hsame : (ofText text).position a = (ofText text).position b := by
        unfold position
        rw [show min a (ofText text).length = min b (ofText text).length from heq]
      exact (congrArg LineColumn.key hsame).le
  · obtain ⟨o, ⟨front, back, rfl, rfl⟩, rfl⟩ := mem_startsAfter.mp hstart
    simp only [Text.byteLength_append]
    show 0 + _ + 1 ≤ _ + 1 + _
    omega

end LineIndex

end ComponentMarkup
