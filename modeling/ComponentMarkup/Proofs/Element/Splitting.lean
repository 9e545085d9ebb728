import ComponentMarkup.Proofs.Element.Weaving
import ComponentMarkup.Proofs.Position.Boundaries
import Mathlib.Data.List.Induction

/-!
# Splitting spans around nested elements

An index of nested elements is filled and emptied by calls in any order: an element is recorded, or
the elements in a span are taken out of it. The recorded spans may overlap, may be empty and may reach
out of the span they are taken for. Main statement: a span is split into segments that tile it, and
the index loses just the elements that became segments. An element is left if it starts outside of
the span, reaches past it or starts inside of one that was taken.
-/

namespace ComponentMarkup

open Text (byteLength)

variable {nested : NestedElement}

variable {source : List Char} {o stop : Nat} {segments : List Segment}

/-- The texts of segments that follow each other are the text from the first to the last. -/
theorem Laid.isAt_text (h : Laid source o segments stop) (ho : Text.IsBoundary source o) :
    IsAt source (segments.flatMap (·.text)) o ∧
      stop = o + byteLength (segments.flatMap (·.text)) := by
  induction h with
  | nil =>
    obtain ⟨front, back, rfl, rfl⟩ := ho
    exact ⟨⟨front, back, by simp, rfl⟩, rfl⟩
  | @cons o t element rest stop hat _ ih =>
    obtain ⟨hrest, hstop⟩ := ih (.of_isAt_stop hat)
    rw [List.flatMap_cons]
    refine ⟨hat.append hrest, ?_⟩
    rw [hstop, Text.byteLength_append, Nat.add_assoc]

theorem Laid.append {mid : Nat} {more : List Segment} (h : Laid source o segments mid)
    (hmore : Laid source mid more stop) : Laid source o (segments ++ more) stop := by
  induction h with
  | nil => exact hmore
  | cons hat _ ih => exact .cons hat (ih hmore)

theorem Laid.of_isWhole (h : span.IsWhole source) (element : Option Element) {rest : List Segment}
    (hrest : Laid source span.stop rest stop) :
    Laid source span.start (⟨span.slice source, span, element⟩ :: rest) stop := by
  obtain ⟨t, hat, hover, hslice⟩ := h.slice?
  have htext : span.slice source = t := by rw [Span.slice, hslice, Option.getD_some]
  rw [htext]
  rw [hover] at hrest ⊢
  exact .cons hat hrest

namespace NestedIndex

/-- A call on an index. -/
inductive Call where
  | record (nested : NestedElement)
  | take (span : Span)

/-- The span that a call is about. -/
def Call.span : Call → Span
  | .record nested => nested.span
  | .take span => span

variable {source : List Char} {span : Span} {offset : Nat} {index : NestedIndex}
  {x : NestedElement} {calls : List Call}

/-! ## One call -/

/-- Elements stand in the order of where they start, at most one at each offset, and their spans cover
text. -/
structure IsKept (source : List Char) (index : NestedIndex) : Prop where
  ordered : index.Pairwise fun a b => a.span.start < b.span.start
  whole : ∀ x ∈ index, x.span.IsWhole source

theorem laid_gap {start : Nat} (hstart : Text.IsBoundary source start)
    (hstop : Text.IsBoundary source stop) (hle : start ≤ stop) :
    Laid source start (gap source start stop) stop := by
  unfold gap
  split
  · have hwhole : (Span.mk start stop).IsWhole source := ⟨hle, hstart, hstop⟩
    exact .of_isWhole hwhole none .nil
  · obtain rfl : start = stop := by omega
    exact .nil

theorem taken_iff :
    (offset ≤ x.span.start && span.containsOffset x.span.start && x.span.stop ≤ span.stop) = true ↔
      offset ≤ x.span.start ∧ span.start ≤ x.span.start ∧ x.span.start < span.stop ∧
        x.span.stop ≤ span.stop := by
  rw [Bool.and_eq_true, Bool.and_eq_true, Span.containsOffset_iff, decide_eq_true_eq,
    decide_eq_true_eq, and_assoc, and_assoc]

/-- From an offset in the span on, the segments tile the span. -/
theorem laid_takeFrom (hspan : Text.IsBoundary source span.stop)
    (hindex : ∀ x ∈ index, x.span.IsWhole source) (hoffset : Text.IsBoundary source offset)
    (hle : offset ≤ span.stop) :
    Laid source offset (takeFrom source span offset index).1 span.stop := by
  fun_induction takeFrom source span offset index with
  | case1 offset => exact laid_gap hoffset hspan hle
  | case2 offset first rest htaken segments left htake ih =>
    obtain ⟨hfirst, hrest⟩ := List.forall_mem_cons.mp hindex
    obtain ⟨hfrom, -, -, hstop⟩ := taken_iff.mp htaken
    have hlaid := ih hrest hfirst.stop hstop
    rw [htake] at hlaid
    exact (laid_gap hoffset hfirst.start hfrom).append (.of_isWhole hfirst _ hlaid)
  | case3 offset first rest _ segments left htake ih =>
    have hlaid := ih (List.forall_mem_cons.mp hindex).2 hoffset hle
    rwa [htake] at hlaid

theorem nestedOfAll_gap (source : List Char) (start stop : Nat) (segments : List Segment) :
    Segment.nestedOfAll (gap source start stop ++ segments) = Segment.nestedOfAll segments := by
  unfold gap
  split <;> rfl

theorem perm_takeFrom (source : List Char) (span : Span) (offset : Nat) (index : NestedIndex) :
    (Segment.nestedOfAll (takeFrom source span offset index).1 ++
      (takeFrom source span offset index).2).Perm index := by
  fun_induction takeFrom source span offset index with
  | case1 offset =>
    have hnone := nestedOfAll_gap source offset span.stop []
    rw [List.append_nil] at hnone
    rw [hnone]
    exact .refl _
  | case2 offset first rest _ segments left htake ih =>
    rw [htake] at ih
    rw [nestedOfAll_gap]
    exact ih.cons first
  | case3 offset first rest _ segments left htake ih =>
    rw [htake] at ih
    exact List.perm_middle.trans (ih.cons first)

theorem sublist_takeFrom (source : List Char) (span : Span) (offset : Nat) (index : NestedIndex) :
    (takeFrom source span offset index).2.Sublist index := by
  fun_induction takeFrom source span offset index with
  | case1 => exact .slnil
  | case2 offset first rest _ segments left htake ih =>
    rw [htake] at ih
    exact ih.cons first
  | case3 offset first rest _ segments left htake ih =>
    rw [htake] at ih
    exact ih.cons_cons first

/-- Which elements are left: those that start too early or outside of the span, that reach past it,
or that start inside of one that was taken. -/
theorem mem_takeFrom_iff (hordered : index.Pairwise fun a b => a.span.start < b.span.start)
    (hx : x ∈ index) :
    x ∈ (takeFrom source span offset index).2 ↔
      x.span.start < offset ∨ span.containsOffset x.span.start = false ∨
        span.stop < x.span.stop ∨
        ∃ y ∈ Segment.nestedOfAll (takeFrom source span offset index).1,
          y.span.start < x.span.start ∧ x.span.start < y.span.stop := by
  fun_induction takeFrom source span offset index with
  | case1 => cases hx
  | case2 offset first rest htaken segments left htake ih =>
    obtain ⟨hfirst, hrest⟩ := List.pairwise_cons.mp hordered
    have hperm := perm_takeFrom source span first.span.stop rest
    rw [htake] at ih hperm
    obtain ⟨hfrom, hstart, hinside, hstop⟩ := taken_iff.mp htaken
    have hcontains := Span.containsOffset_iff.mpr ⟨hstart, hinside⟩
    have hnested : Segment.nestedOfAll (gap source offset first.span.start ++
        ⟨first.span.slice source, first.span, some first.element⟩ :: segments) =
          first :: Segment.nestedOfAll segments := nestedOfAll_gap source offset first.span.start _
    have hlater : ∀ y ∈ Segment.nestedOfAll segments, first.span.start < y.span.start :=
      fun y hy => hfirst y (hperm.mem_iff.mp (List.mem_append_left _ hy))
    simp only [hnested, List.mem_cons, exists_eq_or_imp]
    obtain rfl | hx := List.mem_cons.mp hx
    · -- the element itself is taken, and none in front of it is in its way
      have hgone : x ∉ left := fun hmem =>
        Nat.lt_irrefl _ (hfirst x (hperm.mem_iff.mp (List.mem_append_right _ hmem)))
      refine iff_of_false hgone ?_
      rintro (hlt | hout | hpast | ⟨hlt, -⟩ | ⟨y, hy, hlt, -⟩)
      · omega
      · rw [hcontains] at hout
        cases hout
      · omega
      · omega
      · have hlt' := hlater y hy
        omega
    · -- starting before the end of `first` is the same as starting inside of it
      rw [ih hrest hx]
      have hlt := hfirst x hx
      have hnot : ¬ x.span.start < offset := by omega
      simp only [hlt, hnot, true_and, false_or]
      exact or_left_comm.trans (or_congr_right or_left_comm)
  | case3 offset first rest htaken segments left htake ih =>
    obtain ⟨hfirst, hrest⟩ := List.pairwise_cons.mp hordered
    rw [htake] at ih
    obtain rfl | hx := List.mem_cons.mp hx
    · -- the element is passed over, so one of the tests for taking it failed
      refine iff_of_true List.mem_cons_self ?_
      rw [taken_iff] at htaken
      rw [Span.containsOffset_eq_false_iff]
      omega
    · have hne : x ≠ first := by
        intro heq
        have hlt := hfirst x hx
        rw [heq] at hlt
        exact Nat.lt_irrefl _ hlt
      rw [List.mem_cons, or_iff_right hne, ih hrest hx]

/-! ## The whole of a span -/

theorem take_snd (source : List Char) (span : Span) (index : NestedIndex) :
    (take source span index).2 = (takeFrom source span span.start index).2 := by
  unfold take
  split
  · next heq => rw [heq]
  · rfl

theorem nestedOfAll_take (source : List Char) (span : Span) (index : NestedIndex) :
    Segment.nestedOfAll (take source span index).1 =
      Segment.nestedOfAll (takeFrom source span span.start index).1 := by
  unfold take
  split
  · next heq =>
    rw [heq]
    rfl
  · rfl

theorem laid_take (hspan : span.IsWhole source) (hindex : ∀ x ∈ index, x.span.IsWhole source) :
    Laid source span.start (take source span index).1 span.stop := by
  have hlaid := laid_takeFrom hspan.stop hindex hspan.start hspan.ordered
  unfold take
  split
  · exact .of_isWhole hspan none .nil
  · exact hlaid

theorem IsKept.take (h : IsKept source index) (span : Span) :
    IsKept source (take source span index).2 := by
  rw [take_snd]
  have hsub := sublist_takeFrom source span span.start index
  exact ⟨h.ordered.sublist hsub, fun x hx => h.whole x (hsub.subset hx)⟩

theorem mem_record (h : x ∈ record nested index) : x = nested ∨ x ∈ index := by
  fun_induction record nested index with
  | case1 => exact .inl (List.mem_singleton.mp h)
  | case2 first rest _ ih =>
    obtain rfl | h := List.mem_cons.mp h
    · exact .inr List.mem_cons_self
    · exact (ih h).imp_right (List.mem_cons_of_mem first)
  | case3 => exact .inr h
  | case4 => exact List.mem_cons.mp h

theorem IsKept.record (h : IsKept source index) (hnested : nested.span.IsWhole source) :
    IsKept source (record nested index) := by
  refine ⟨?_, fun x hx => ?_⟩
  · have hordered := h.ordered
    clear h
    fun_induction NestedIndex.record nested index with
    | case1 => exact List.pairwise_singleton _ nested
    | case2 first rest hlt ih =>
      obtain ⟨hfirst, hrest⟩ := List.pairwise_cons.mp hordered
      refine List.pairwise_cons.mpr ⟨fun x hx => ?_, ih hrest⟩
      obtain rfl | hx := mem_record hx
      · exact hlt
      · exact hfirst x hx
    | case3 => exact hordered
    | case4 first rest hle hne =>
      refine List.pairwise_cons.mpr ⟨fun x hx => ?_, hordered⟩
      obtain rfl | hx := List.mem_cons.mp hx
      · omega
      · have hlt := (List.pairwise_cons.mp hordered).1 x hx
        omega
  · obtain rfl | hx := mem_record hx
    · exact hnested
    · exact h.whole x hx

/-- An element enters the index only if none starts at the same offset. -/
theorem startsAt_of_mem_record (hordered : index.Pairwise fun a b => a.span.start < b.span.start)
    (hx : x ∈ record nested index) (hnew : x ∉ index) :
    x = nested ∧ index.startsAt x.span.start = false := by
  obtain rfl | hmem := mem_record hx
  · refine ⟨rfl, ?_⟩
    rw [startsAt, List.any_eq_false]
    fun_induction NestedIndex.record x index with
    | case1 => exact List.forall_mem_nil _
    | case2 first rest hlt ih =>
      obtain ⟨hfirst, hrest⟩ := List.pairwise_cons.mp hordered
      rw [List.mem_cons, not_or] at hnew
      have hmem := (List.mem_cons.mp hx).resolve_left hnew.1
      refine List.forall_mem_cons.mpr ⟨?_, ih hrest hnew.2 hmem⟩
      rw [beq_iff_eq]
      omega
    | case3 => exact absurd hx hnew
    | case4 first rest hle hne =>
      have hfirst := (List.pairwise_cons.mp hordered).1
      intro y hy
      rw [beq_iff_eq]
      obtain rfl | hy := List.mem_cons.mp hy
      · exact hne
      · have hlt := hfirst y hy
        omega
  · exact absurd hmem hnew

/-! ## Sequences of calls -/

/-- The index after a call. -/
def after (source : List Char) (index : NestedIndex) : Call → NestedIndex
  | .record nested => record nested index
  | .take span => (take source span index).2

/-- The index after some calls. -/
def reached (source : List Char) (calls : List Call) : NestedIndex :=
  calls.foldl (after source) []

theorem reached_concat (source : List Char) (calls : List Call) (call : Call) :
    reached source (calls ++ [call]) = after source (reached source calls) call := by
  rw [reached, List.foldl_append]
  rfl

theorem isKept_reached (h : ∀ call ∈ calls, call.span.IsWhole source) :
    IsKept source (reached source calls) := by
  induction calls using List.reverseRecOn with
  | nil => exact ⟨.nil, List.forall_mem_nil _⟩
  | append_singleton calls call ih =>
    obtain ⟨hcalls, hcall⟩ := List.forall_mem_append.mp h
    have hkept := ih hcalls
    rw [reached_concat]
    cases call with
    | record nested => exact hkept.record (hcall _ List.mem_cons_self)
    | take span => exact hkept.take span

/-- What a call puts into the index. -/
theorem mem_after (hordered : index.Pairwise fun a b => a.span.start < b.span.start) {call : Call}
    (hx : x ∈ after source index call) :
    x ∈ index ∨ call = .record x ∧ index.startsAt x.span.start = false := by
  cases call with
  | record nested =>
    by_cases hmem : x ∈ index
    · exact .inl hmem
    · obtain ⟨rfl, hfree⟩ := startsAt_of_mem_record hordered hx hmem
      exact .inr ⟨rfl, hfree⟩
  | take span =>
    rw [after, take_snd] at hx
    exact .inl ((sublist_takeFrom source span span.start index).subset hx)

/-- An element of the index was recorded when none waited at its offset, so it was the first there,
and has waited since. -/
def IsFirstAt (source : List Char) (calls : List Call) (x : NestedElement) : Prop :=
  ∃ before later, calls = before ++ .record x :: later ∧
    (reached source before).startsAt x.span.start = false ∧
    ∀ more, more <+: later → x ∈ reached source (before ++ .record x :: more)

theorem isFirstAt_of_mem (h : ∀ call ∈ calls, call.span.IsWhole source)
    (hx : x ∈ reached source calls) : IsFirstAt source calls x := by
  induction calls using List.reverseRecOn with
  | nil => cases hx
  | append_singleton calls call ih =>
    have hcalls := (List.forall_mem_append.mp h).1
    have hstep := hx
    rw [reached_concat] at hstep
    obtain hmem | ⟨rfl, hfree⟩ := mem_after (isKept_reached hcalls).ordered hstep
    · obtain ⟨before, later, rfl, hfree, hwaits⟩ := ih hcalls hmem
      refine ⟨before, later ++ [call], by simp, hfree, fun more hmore => ?_⟩
      obtain rfl | hmore := List.prefix_concat_iff.mp hmore
      · simpa using hx
      · exact hwaits more hmore
    · refine ⟨calls, [], rfl, hfree, fun more hmore => ?_⟩
      rw [List.prefix_nil.mp hmore]
      exact hx

/-- A span is split exactly, whatever calls came before. Its segments tile it and have its text; those
with an element carry the one that was recorded first at their offset, which is the first one after the
offset was last taken; the index loses the elements that became segments and no others. These are the
elements that start in the span, do not reach past it and do not start inside of one that was taken. -/
theorem take_splits {calls : List Call} (hcalls : ∀ call ∈ calls, call.span.IsWhole source)
    (hspan : span.IsWhole source) :
    Laid source span.start (take source span (reached source calls)).1 span.stop ∧
      (take source span (reached source calls)).1.flatMap (·.text) = span.slice source ∧
      (∀ x ∈ Segment.nestedOfAll (take source span (reached source calls)).1,
        IsFirstAt source calls x) ∧
      (Segment.nestedOfAll (take source span (reached source calls)).1 ++
        (take source span (reached source calls)).2).Perm (reached source calls) ∧
      (take source span (reached source calls)).2.Sublist (reached source calls) ∧
      ∀ x ∈ reached source calls,
        (x ∈ (take source span (reached source calls)).2 ↔
          span.containsOffset x.span.start = false ∨ span.stop < x.span.stop ∨
            ∃ y ∈ Segment.nestedOfAll (take source span (reached source calls)).1,
              y.span.start < x.span.start ∧ x.span.start < y.span.stop) := by
  have hkept := isKept_reached hcalls
  have hlaid := laid_take hspan hkept.whole
  have hperm := perm_takeFrom source span span.start (reached source calls)
  rw [← take_snd, ← nestedOfAll_take] at hperm
  refine ⟨hlaid, ?_, ?_, hperm, ?_, ?_⟩
  · obtain ⟨hat, hstop⟩ := hlaid.isAt_text hspan.start
    have hslice := hat.slice
    rw [← hstop] at hslice
    exact hslice.symm
  · exact fun x hx => isFirstAt_of_mem hcalls (hperm.mem_iff.mp (List.mem_append_left _ hx))
  · rw [take_snd]
    exact sublist_takeFrom source span span.start _
  · intro x hx
    have hiff : x ∈ (takeFrom source span span.start (reached source calls)).2 ↔ _ :=
      mem_takeFrom_iff hkept.ordered hx
    rw [← take_snd, ← nestedOfAll_take] at hiff
    rw [hiff, Span.containsOffset_eq_false_iff, ← or_assoc (a := x.span.start < span.start),
      or_self_left]

/-- Of three elements at one offset the second is not recorded, and the third is the first there once
the first was taken. Of two more, one starts inside of another and one reaches past the span. -/
theorem take_splits_of_overlap :
    let source := "xx (<a/>) yy".toList
    let calls : List Call :=
      [.record ⟨⟨3, 9⟩, ⟨"a", [], none, ⟨4, 8⟩⟩⟩, .record ⟨⟨3, 12⟩, ⟨"b", [], none, ⟨4, 11⟩⟩⟩,
        .take ⟨2, 9⟩, .record ⟨⟨3, 9⟩, ⟨"e", [], none, ⟨4, 8⟩⟩⟩,
        .record ⟨⟨5, 7⟩, ⟨"c", [], none, ⟨5, 7⟩⟩⟩, .record ⟨⟨10, 12⟩, ⟨"d", [], none, ⟨10, 12⟩⟩⟩]
    (Segment.nestedOfAll (take source ⟨0, 11⟩ (reached source calls)).1).map (·.element.tag) = ["e"] ∧
      (take source ⟨0, 11⟩ (reached source calls)).2.map (·.element.tag) = ["c", "d"] ∧
      (take source ⟨0, 11⟩ (reached source calls)).1.flatMap (·.text) = "xx (<a/>) y".toList := by
  intro source calls
  have hcalls : ∀ call ∈ calls, call.span.IsWhole source := by
    simp only [calls, List.forall_mem_cons, Span.IsWhole.iff_slice?]
    exact ⟨by decide, by decide, by decide, by decide, by decide, by decide, List.forall_mem_nil _⟩
  refine ⟨by decide, by decide, ?_⟩
  exact (take_splits hcalls (Span.IsWhole.iff_slice?.mpr (by decide))).2.1

end NestedIndex

end ComponentMarkup
