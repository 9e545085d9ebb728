import ComponentMarkup.Proofs.Position.Boundaries
import ComponentMarkup.Proofs.Position.Origins

/-!
# Looking up generated offsets

Two facts about source maps, both over every sequence of calls that builds one.

* Runs that do not overlap may be recorded in any order. They are stored by offset, the run that
  covers an offset is found, and an offset outside of all runs is led to the run after it.
* A splice leads every byte that it copied back to the source, unless a construct was replaced by
  nothing just before the copy. Such an empty run starts where the copy starts and hides it.
-/

namespace ComponentMarkup

namespace Mapping

/-- One run ends before the other starts. -/
def Apart (a b : Mapping) : Prop :=
  a.offset + a.length ≤ b.offset ∨ b.offset + b.length ≤ a.offset

/-- The generated offsets that a run takes. Offsets are 32-bit words, so the end of a run that goes
beyond them wraps around, and the range is empty. -/
def range (m : Mapping) : Span :=
  ⟨m.offset, (m.offset + m.length) % 2 ^ 32⟩

/-- Runs with ranges that are not empty and do not overlap. -/
structure Separate (runs : List Mapping) : Prop where
  words : ∀ m ∈ runs, m.offset < 2 ^ 32 ∧ m.length < 2 ^ 32
  nonempty : ∀ m ∈ runs, m.range.start < m.range.stop
  apart : runs.Pairwise fun a b => a.range.stop ≤ b.range.start ∨ b.range.stop ≤ a.range.start

/-- A range that is not empty did not wrap around. -/
theorem Separate.range_eq {runs : List Mapping} (h : Separate runs) {m : Mapping} (hm : m ∈ runs) :
    0 < m.length ∧ m.range = ⟨m.offset, m.offset + m.length⟩ := by
  obtain ⟨hoffset, hlength⟩ := h.words m hm
  have hlt : m.offset < (m.offset + m.length) % 2 ^ 32 := h.nonempty m hm
  refine ⟨by omega, ?_⟩
  rw [range, Nat.mod_eq_of_lt (by omega)]

theorem Separate.pairwise_apart {runs : List Mapping} (h : Separate runs) : runs.Pairwise Apart := by
  refine h.apart.imp_of_mem fun {a b} ha hb hab => ?_
  rwa [(h.range_eq ha).2, (h.range_eq hb).2] at hab

end Mapping

namespace SourceMap

variable {m : Mapping}

/-! ## Insertion -/

/-- The map of runs that are recorded one after another. -/
def ofRuns (runs : List Mapping) : SourceMap :=
  runs.foldl insert .empty

theorem insertSorted_eq (m : Mapping) (ms : List Mapping) :
    insertSorted m ms =
      ms.takeWhile (·.offset < m.offset) ++ m :: ms.dropWhile (·.offset < m.offset) := by
  induction ms with
  | nil => rfl
  | cons x rest ih =>
    rw [insertSorted]
    by_cases hx : x.offset < m.offset
    · rw [if_pos hx, ih, List.takeWhile_cons_of_pos (by simpa using hx),
        List.dropWhile_cons_of_pos (by simpa using hx), List.cons_append]
    · rw [if_neg hx, List.takeWhile_cons_of_neg (by simpa using hx),
        List.dropWhile_cons_of_neg (by simpa using hx), List.nil_append]

theorem insertSorted_perm (m : Mapping) (ms : List Mapping) : (insertSorted m ms).Perm (m :: ms) := by
  rw [insertSorted_eq]
  refine List.perm_middle.trans (.cons m ?_)
  rw [List.takeWhile_append_dropWhile]

/-- A run that does not overlap the others keeps them in order. -/
theorem pairwise_insertSorted {ms : List Mapping} (hpos : ∀ x ∈ m :: ms, 0 < x.length)
    (hm : ∀ x ∈ ms, m.Apart x) (h : ms.Pairwise fun a b => a.offset + a.length ≤ b.offset) :
    (insertSorted m ms).Pairwise fun a b => a.offset + a.length ≤ b.offset := by
  induction ms with
  | nil => exact List.pairwise_singleton _ m
  | cons x rest ih =>
    obtain ⟨hx, hrest⟩ := List.pairwise_cons.mp h
    have hapart := hm x List.mem_cons_self
    have hmpos := hpos m List.mem_cons_self
    have hxpos := hpos x (by simp)
    rw [Mapping.Apart] at hapart
    rw [insertSorted]
    by_cases hlt : x.offset < m.offset
    · -- `x` starts before the run, so it ends before it as well
      rw [if_pos hlt, List.pairwise_cons]
      refine ⟨fun y hy => ?_,
        ih (fun y hy => hpos y ?_) (fun y hy => hm y (List.mem_cons_of_mem x hy)) hrest⟩
      · obtain rfl | hy := List.mem_cons.mp ((insertSorted_perm m rest).mem_iff.mp hy)
        · omega
        · exact hx y hy
      · obtain rfl | hy := List.mem_cons.mp hy
        · exact List.mem_cons_self
        · simp [hy]
    · rw [if_neg hlt, List.pairwise_cons]
      refine ⟨fun y hy => ?_, h⟩
      obtain rfl | hy := List.mem_cons.mp hy
      · omega
      · have hy := hx y hy
        omega

/-! ## Runs in any order -/

section

variable {map : SourceMap} {stop : Nat} {runs : List Mapping} {i : Nat}

/-- What recording runs one after another keeps: they are all stored, in order. -/
theorem InOrder.foldl_insert (h : map.InOrder stop)
    (hplaced : ∀ m ∈ runs, 0 < m.length ∧ m.offset + m.length ≤ stop)
    (hruns : runs.Pairwise Mapping.Apart) (hmap : ∀ m ∈ runs, ∀ x ∈ map.mappings, m.Apart x) :
    (runs.foldl SourceMap.insert map).InOrder stop ∧
      (runs.foldl SourceMap.insert map).mappings.Perm (runs ++ map.mappings) := by
  induction runs generalizing map with
  | nil => exact ⟨h, .refl _⟩
  | cons m rest ih =>
    obtain ⟨hm, hrest⟩ := List.pairwise_cons.mp hruns
    have hperm : (map.insert m).mappings.Perm (m :: map.mappings) :=
      insertSorted_perm m map.mappings
    have hall : ∀ x ∈ m :: map.mappings, 0 < x.length ∧ x.offset + x.length ≤ stop := by
      intro x hx
      obtain rfl | hx := List.mem_cons.mp hx
      · exact hplaced x List.mem_cons_self
      · exact h.placed x hx
    have hinsert : (map.insert m).InOrder stop := by
      constructor
      · exact pairwise_insertSorted (fun x hx => (hall x hx).1) (hmap m List.mem_cons_self) h.apart
      · exact fun x hx => hall x (hperm.mem_iff.mp hx)
    -- what is recorded later is apart from all that is stored by now
    have hlater : ∀ x ∈ rest, ∀ y ∈ (map.insert m).mappings, x.Apart y := by
      intro x hx y hy
      obtain rfl | hy := List.mem_cons.mp (hperm.mem_iff.mp hy)
      · exact (hm x hx).symm
      · exact hmap x (List.mem_cons_of_mem m hx) y hy
    obtain ⟨hfinal, hstored⟩ :=
      ih hinsert (fun x hx => hplaced x (List.mem_cons_of_mem m hx)) hrest hlater
    exact ⟨hfinal, hstored.trans ((hperm.append_left rest).trans List.perm_middle)⟩

theorem exists_inOrder_ofRuns (hpos : ∀ m ∈ runs, 0 < m.length)
    (hapart : runs.Pairwise Mapping.Apart) :
    ∃ stop, (ofRuns runs).InOrder stop ∧ (ofRuns runs).mappings.Perm runs := by
  -- any offset that no run goes beyond will do
  refine ⟨(runs.map fun m => m.offset + m.length).sum, ?_⟩
  have hstart : empty.InOrder (runs.map fun m => m.offset + m.length).sum :=
    ⟨.nil, fun m hm => absurd hm List.not_mem_nil⟩
  have hplaced : ∀ m ∈ runs, 0 < m.length ∧
      m.offset + m.length ≤ (runs.map fun m => m.offset + m.length).sum := fun m hm =>
    ⟨hpos m hm, List.le_sum_of_mem (List.mem_map_of_mem hm)⟩
  obtain ⟨horder, hperm⟩ :=
    hstart.foldl_insert hplaced hapart fun m _ x hx => absurd hx List.not_mem_nil
  exact ⟨horder, hperm.trans (.of_eq (List.append_nil runs))⟩

theorem InOrder.eq_of_offset_eq (h : map.InOrder stop) {a b : Mapping} (ha : a ∈ map.mappings)
    (hb : b ∈ map.mappings) (hoffset : a.offset = b.offset) : a = b := by
  have hnodup : (map.mappings.map Mapping.offset).Nodup := by
    refine List.pairwise_map.mpr (h.apart.imp_of_mem fun {a b} ha _ hle => ?_)
    have hpos := (h.placed a ha).1
    omega
  exact List.inj_on_of_nodup_map hnodup ha hb hoffset

theorem InOrder.find?_eq_some_iff (h : map.InOrder stop) :
    map.find? i = some m ↔ m ∈ map.mappings ∧ m.covers i = true := by
  constructor
  · intro hfind
    obtain ⟨hlast, hcovers⟩ := Option.filter_eq_some_iff.mp hfind
    exact ⟨(List.takeWhile_sublist _).subset (List.mem_of_getLast? hlast), hcovers⟩
  · exact fun hm => h.find?_eq hm.1 hm.2

theorem InOrder.find?_eq_none_iff (h : map.InOrder stop) :
    map.find? i = none ↔ ∀ m ∈ map.mappings, m.covers i = false := by
  rw [Option.eq_none_iff_forall_ne_some]
  constructor
  · intro hnone m hm
    rw [← Bool.not_eq_true]
    exact fun hcovers => hnone m (h.find?_eq hm hcovers)
  · intro hnone m hfind
    obtain ⟨hm, hcovers⟩ := h.find?_eq_some_iff.mp hfind
    rw [hnone m hm] at hcovers
    cases hcovers

/-- An offset outside of all runs is led to the start of the next one. -/
theorem InOrder.sourceOffset?_of_next (h : map.InOrder stop)
    (hnone : ∀ m ∈ map.mappings, m.covers i = false) {next : Mapping}
    (hnext : next ∈ map.mappings) (hi : i < next.offset)
    (hleast : ∀ m ∈ map.mappings, i < m.offset → next.offset ≤ m.offset) :
    map.sourceOffset? i = some next.source.start := by
  rw [sourceOffset?, h.find?_eq_none_iff.mpr hnone]
  cases hfind : map.mappings.find? (i ≤ ·.offset) with
  | none =>
    have hnot := List.find?_eq_none.mp hfind next hnext
    simp only [decide_eq_true_eq] at hnot
    omega
  | some m =>
    obtain ⟨hm, before, after, hsplit, hbefore⟩ := List.find?_eq_some_iff_append.mp hfind
    have hmem : m ∈ map.mappings := List.mem_of_find?_eq_some hfind
    -- the run found starts after the offset, as it would cover it otherwise
    have hlt : i < m.offset := by
      have hpos := (h.placed m hmem).1
      have hcovers := hnone m hmem
      rw [← Bool.not_eq_true, Mapping.covers_iff] at hcovers
      simp only [decide_eq_true_eq] at hm
      omega
    have hle : m.offset ≤ next.offset := by
      have hapart := h.apart
      rw [hsplit, List.pairwise_append, List.pairwise_cons] at hapart
      rw [hsplit, List.mem_append, List.mem_cons] at hnext
      obtain hnext | rfl | hnext := hnext
      · have hnot := hbefore next hnext
        simp only [Bool.not_eq_true', decide_eq_false_iff_not] at hnot
        omega
      · exact Nat.le_refl _
      · have hafter := hapart.2.1.1 next hnext
        omega
    rw [h.eq_of_offset_eq hmem hnext (Nat.le_antisymm hle (hleast m hmem hlt))]

/-- An offset after all runs is led to the end of the last one. -/
theorem InOrder.sourceOffset?_of_last (h : map.InOrder stop)
    (hnone : ∀ m ∈ map.mappings, m.covers i = false) (hi : ∀ m ∈ map.mappings, m.offset ≤ i)
    {last : Mapping} (hlast : last ∈ map.mappings)
    (hgreatest : ∀ m ∈ map.mappings, m.offset ≤ last.offset) :
    map.sourceOffset? i = some last.source.stop := by
  have hafter : map.mappings.find? (i ≤ ·.offset) = none := by
    rw [List.find?_eq_none]
    intro m hm
    have hpos := (h.placed m hm).1
    have hle := hi m hm
    have hcovers := hnone m hm
    rw [← Bool.not_eq_true, Mapping.covers_iff] at hcovers
    simp only [decide_eq_true_eq]
    omega
  have hend : map.mappings.getLast? = some last := by
    obtain ⟨m, hm⟩ := Option.ne_none_iff_exists'.mp
      (mt List.getLast?_eq_none_iff.mp (List.ne_nil_of_mem hlast))
    obtain ⟨before, hsplit⟩ := List.getLast?_eq_some_iff.mp hm
    have hmem : m ∈ map.mappings := List.mem_of_getLast? hm
    have hle : last.offset ≤ m.offset := by
      have hapart := h.apart
      rw [hsplit, List.pairwise_append] at hapart
      rw [hsplit, List.mem_append, List.mem_singleton] at hlast
      obtain hlast | rfl := hlast
      · have hbefore := hapart.2.2 last hlast m List.mem_cons_self
        omega
      · exact Nat.le_refl _
    rw [hm, h.eq_of_offset_eq hmem hlast (Nat.le_antisymm (hgreatest m hmem) hle)]
  rw [sourceOffset?, h.find?_eq_none_iff.mpr hnone, hafter, hend]
  rfl

/-- Runs that are not empty and do not overlap make the same map in whatever order they are
recorded. It stores them by offset, finds the run that covers an offset, and leads an offset outside
of all runs to the start of the next run, or to the end of the last one. -/
theorem ofRuns_sorted (h : Mapping.Separate runs) :
    (ofRuns runs).mappings.Perm runs ∧
      (ofRuns runs).mappings.Pairwise (fun a b => a.offset < b.offset) ∧
      (∀ order : List Mapping, order.Perm runs → ofRuns order = ofRuns runs) ∧
      ∀ i, (∀ m, (ofRuns runs).find? i = some m ↔ m ∈ runs ∧ m.range.containsOffset i = true) ∧
        ((ofRuns runs).find? i = none ↔ ∀ m ∈ runs, m.range.containsOffset i = false) ∧
        ((∀ m ∈ runs, m.range.containsOffset i = false) →
          (∀ next ∈ runs, i < next.offset → (∀ m ∈ runs, i < m.offset → next.offset ≤ m.offset) →
            (ofRuns runs).sourceOffset? i = some next.source.start) ∧
          ((∀ m ∈ runs, m.offset ≤ i) →
            ∀ last ∈ runs, (∀ m ∈ runs, m.offset ≤ last.offset) →
              (ofRuns runs).sourceOffset? i = some last.source.stop)) := by
  have hpos : ∀ m ∈ runs, 0 < m.length := fun m hm => (h.range_eq hm).1
  obtain ⟨stop, horder, hperm⟩ := exists_inOrder_ofRuns hpos h.pairwise_apart
  have hmem : ∀ m, m ∈ runs ↔ m ∈ (ofRuns runs).mappings := fun m => hperm.mem_iff.symm
  refine ⟨hperm, ?_, ?_, ?_⟩
  · refine horder.apart.imp_of_mem fun {a b} ha _ hle => ?_
    have hpos := (horder.placed a ha).1
    omega
  · intro order hsame
    obtain ⟨stop', horder', hperm'⟩ := exists_inOrder_ofRuns
      (fun m hm => hpos m (hsame.mem_iff.mp hm)) ((hsame.pairwise_iff Or.symm).mpr h.pairwise_apart)
    -- there is only one way to put the same runs in order
    have heq : (ofRuns order).mappings = (ofRuns runs).mappings := by
      refine List.Perm.eq_of_pairwise ?_ horder'.apart horder.apart
        ((hperm'.trans hsame).trans hperm.symm)
      intro a b ha hb hab hba
      have hpos := (horder'.placed a ha).1
      omega
    rw [← SourceMap.mk.injEq] at heq
    exact heq
  · intro i
    have hcovers : ∀ m ∈ runs, m.range.containsOffset i = m.covers i := by
      intro m hm
      rw [(h.range_eq hm).2]
      rfl
    have hfree : (∀ m ∈ runs, m.range.containsOffset i = false) ↔ ∀ m ∈ runs, m.covers i = false :=
      forall₂_congr fun m hm => by rw [hcovers m hm]
    have hfound : ∀ m, m ∈ runs ∧ m.range.containsOffset i = true ↔ m ∈ runs ∧ m.covers i = true :=
      fun m => and_congr_right fun hm => by rw [hcovers m hm]
    rw [hfree]
    simp only [hfound]
    simp only [hmem]
    refine ⟨fun m => horder.find?_eq_some_iff, horder.find?_eq_none_iff, fun hnone => ⟨?_, ?_⟩⟩
    · exact fun next hnext hi hleast => horder.sourceOffset?_of_next hnone hnext hi hleast
    · exact fun hi last hlast hgreatest => horder.sourceOffset?_of_last hnone hi hlast hgreatest

/-- Three runs with gaps between them, the first of them recorded last. -/
theorem ofRuns_sorted_of_gaps :
    (ofRuns [⟨7, 4, ⟨46, 60⟩⟩, ⟨14, 2, ⟨70, 72⟩⟩, ⟨1, 5, ⟨40, 45⟩⟩]).find? 3 =
        some ⟨1, 5, ⟨40, 45⟩⟩ ∧
      (ofRuns [⟨7, 4, ⟨46, 60⟩⟩, ⟨14, 2, ⟨70, 72⟩⟩, ⟨1, 5, ⟨40, 45⟩⟩]).sourceOffset? 12 =
        some 70 := by
  have hseparate : Mapping.Separate [⟨7, 4, ⟨46, 60⟩⟩, ⟨14, 2, ⟨70, 72⟩⟩, ⟨1, 5, ⟨40, 45⟩⟩] :=
    ⟨by decide, by decide, by simp [Mapping.range]⟩
  obtain ⟨-, -, -, hlookup⟩ := ofRuns_sorted hseparate
  refine ⟨((hlookup 3).1 _).mpr (by decide), ?_⟩
  exact ((hlookup 12).2.2 (by decide)).1 ⟨14, 2, ⟨70, 72⟩⟩ (by decide) (by decide) (by decide)

end

theorem insertSorted_append {front : List Mapping} (h : ∀ x ∈ front, x.offset < m.offset)
    (rest : List Mapping) : insertSorted m (front ++ rest) = front ++ insertSorted m rest := by
  induction front with
  | nil => rfl
  | cons x front ih =>
    rw [List.cons_append, insertSorted, if_pos (h x List.mem_cons_self),
      ih fun y hy => h y (List.mem_cons_of_mem x hy), List.cons_append]

end SourceMap

/-! ## Copies -/

namespace Splice

open Text (byteLength)

variable {s : Splice} {m : Mapping}

/-- The run of a copy at an offset. -/
def copied (offset : Nat) (t : List Char) (start : Nat) : Mapping :=
  ⟨offset, byteLength t, ⟨start, start + byteLength t⟩⟩

/-- A way of appending text. -/
inductive Step where
  | text (t : List Char)
  | copy (t : List Char) (start : Nat)
  | replacement (t : List Char) (source : Span)

namespace Step

/-- The text that is appended. -/
def appended : Step → List Char
  | .text t => t
  | .copy t _ => t
  | .replacement t _ => t

/-- The text stands for a construct of the source. -/
def isReplacement : Step → Bool
  | .replacement .. => true
  | _ => false

/-- The run that is recorded when the text is appended at an offset. -/
def run? (offset : Nat) : Step → Option Mapping
  | .text _ => none
  | .copy t start =>
    if t.isEmpty then none else some (copied offset t start)
  | .replacement t source => some ⟨offset, byteLength t, source⟩

theorem run?_eq_some {step : Step} {offset : Nat} (h : step.run? offset = some m) :
    m.offset = offset ∧ m.length = byteLength step.appended := by
  cases step with
  | text t => cases h
  | copy t start =>
    cases t with
    | nil => cases h
    | cons c t =>
      cases h
      exact ⟨rfl, rfl⟩
  | replacement t source =>
    cases h
    exact ⟨rfl, rfl⟩

end Step

/-- Append text. -/
def push (s : Splice) : Step → Splice
  | .text t => s.pushText t
  | .copy t start => s.pushCopy t start
  | .replacement t source => s.pushReplacement t source

/-- The splice that some steps make. -/
def ofSteps (steps : List Step) : Splice :=
  steps.foldl push .empty

/-- Since text was last appended, a construct was replaced by nothing. -/
def endsInGap (steps : List Step) : Bool :=
  (steps.reverse.takeWhile (·.appended.isEmpty)).any Step.isReplacement

theorem ofSteps_concat (steps : List Step) (step : Step) :
    ofSteps (steps ++ [step]) = (ofSteps steps).push step := by
  rw [ofSteps, List.foldl_append]
  rfl

theorem endsInGap_concat (steps : List Step) (step : Step) :
    endsInGap (steps ++ [step]) =
      (step.appended.isEmpty && (step.isReplacement || endsInGap steps)) := by
  rw [endsInGap, List.reverse_concat, List.takeWhile_cons]
  cases step.appended.isEmpty <;> rfl

theorem offset_push (s : Splice) (step : Step) :
    (s.push step).offset = s.offset + byteLength step.appended := by
  cases step with
  | text t => exact Text.byteLength_append s.text t
  | copy t start =>
    cases t with
    | nil => rfl
    | cons c t => exact Text.byteLength_append s.text (c :: t)
  | replacement t source => exact Text.byteLength_append s.text t

theorem map_push (s : Splice) (step : Step) :
    (s.push step).map = (step.run? s.offset).elim s.map s.map.insert := by
  cases step with
  | text t => rfl
  | copy t start => cases t <;> rfl
  | replacement t source => rfl

theorem mem_map_push {step : Step} :
    m ∈ (s.push step).map.mappings ↔ step.run? s.offset = some m ∨ m ∈ s.map.mappings := by
  rw [map_push]
  cases hrun : step.run? s.offset with
  | none => simp
  | some run =>
    rw [Option.elim_some, SourceMap.insert, (SourceMap.insertSorted_perm _ _).mem_iff,
      List.mem_cons, Option.some.injEq, eq_comm]

/-- No run of a splice goes beyond its text. -/
theorem placed_ofSteps {steps : List Step} (hm : m ∈ (ofSteps steps).map.mappings) :
    m.offset + m.length ≤ (ofSteps steps).offset := by
  induction steps using List.reverseRecOn with
  | nil => cases hm
  | append_singleton steps step ih =>
    rw [ofSteps_concat] at hm ⊢
    rw [offset_push]
    obtain hrun | hm := mem_map_push.mp hm
    · obtain ⟨hoffset, hlength⟩ := Step.run?_eq_some hrun
      omega
    · have hle := ih hm
      omega

/-- A run starts where the text ends if a construct was replaced by nothing there. -/
theorem exists_run_at_end_iff (steps : List Step) :
    (∃ m ∈ (ofSteps steps).map.mappings, m.offset = (ofSteps steps).offset) ↔
      endsInGap steps = true := by
  induction steps using List.reverseRecOn with
  | nil => simp [ofSteps, empty, SourceMap.empty, endsInGap]
  | append_singleton steps step ih =>
    rw [ofSteps_concat, endsInGap_concat, Bool.and_eq_true, Bool.or_eq_true, ← ih, offset_push]
    simp only [mem_map_push]
    constructor
    · rintro ⟨m, hrun | hm, hoffset⟩
      · obtain ⟨hstart, -⟩ := Step.run?_eq_some hrun
        have hempty : step.appended = [] := Text.eq_nil_of_byteLength_zero (by omega)
        refine ⟨by rw [hempty]; rfl, .inl ?_⟩
        cases step with
        | text t => cases hrun
        | copy t start =>
          cases hempty
          cases hrun
        | replacement t source => rfl
      · -- an earlier run starts at the end of the text only if no text was appended since
        have hplaced := placed_ofSteps hm
        have hempty : step.appended = [] := Text.eq_nil_of_byteLength_zero (by omega)
        exact ⟨by rw [hempty]; rfl, .inr ⟨m, hm, by rw [hoffset, hempty]; rfl⟩⟩
    · rintro ⟨hempty, hgap⟩
      rw [List.isEmpty_iff] at hempty
      obtain hreplacement | ⟨m, hm, hoffset⟩ := hgap
      · cases step with
        | replacement t source => exact ⟨_, .inl rfl, by rw [hempty]; rfl⟩
        | _ => cases hreplacement
      · exact ⟨m, .inr hm, by rw [hoffset, hempty]; rfl⟩

/-- Runs in front of where a splice ends stay in front of all that is recorded later. -/
theorem mappings_foldl_push (h : ∀ m ∈ s.map.mappings, m.offset < s.offset) (steps : List Step) :
    ∃ rest, (steps.foldl push s).map.mappings = s.map.mappings ++ rest ∧
      s.offset ≤ (steps.foldl push s).offset ∧ ∀ m ∈ rest, s.offset ≤ m.offset := by
  induction steps using List.reverseRecOn with
  | nil => exact ⟨[], by simp, Nat.le_refl _, by simp⟩
  | append_singleton steps step ih =>
    obtain ⟨rest, hmappings, hle, hrest⟩ := ih
    rw [List.foldl_concat, offset_push, map_push]
    cases hrun : step.run? (steps.foldl push s).offset with
    | none => exact ⟨rest, hmappings, by omega, hrest⟩
    | some run =>
      have hoffset := (Step.run?_eq_some hrun).1
      refine ⟨SourceMap.insertSorted run rest, ?_, by omega, ?_⟩
      · rw [Option.elim_some, SourceMap.insert, hmappings]
        refine SourceMap.insertSorted_append (fun m hm => ?_) rest
        have hlt := h m hm
        omega
      · intro m hm
        obtain rfl | hm := List.mem_cons.mp ((SourceMap.insertSorted_perm run rest).mem_iff.mp hm)
        · omega
        · exact hrest m hm

theorem offset_le_foldl_push (s : Splice) (steps : List Step) :
    s.offset ≤ (steps.foldl push s).offset := by
  induction steps generalizing s with
  | nil => exact Nat.le_refl _
  | cons step steps ih =>
    have hle := ih (s.push step)
    rw [offset_push] at hle
    exact (Nat.le_add_right _ _).trans hle

/-- What a splice has recorded about a copy. The copy stands behind all runs that start before it and
in front of those that start with it, which are empty and hide it; the runs recorded later start
where it ends or after. -/
theorem mappings_copy (before after : List Step) {t : List Char} (ht : t ≠ []) (start : Nat) :
    ∃ front hidden rest,
      (ofSteps (before ++ .copy t start :: after)).map.mappings =
        front ++ copied (ofSteps before).offset t start :: hidden ++ rest ∧
      (∀ m ∈ front, m.offset < (ofSteps before).offset) ∧
      (∀ m ∈ hidden, m.offset + m.length ≤ (ofSteps before).offset) ∧
      (hidden = [] ↔ endsInGap before = false) ∧
      ∀ m ∈ rest, (ofSteps before).offset + byteLength t ≤ m.offset := by
  have hpos : byteLength t ≠ 0 := mt Text.eq_nil_of_byteLength_zero ht
  have hmap : ((ofSteps before).push (.copy t start)).map.mappings =
      SourceMap.insertSorted (copied (ofSteps before).offset t start)
        (ofSteps before).map.mappings := by
    rw [map_push, Step.run?, if_neg (by simpa using ht), Option.elim_some, SourceMap.insert]
  have hfront : ∀ m ∈ ((ofSteps before).push (.copy t start)).map.mappings,
      m.offset < ((ofSteps before).push (.copy t start)).offset := by
    intro m hm
    rw [offset_push, Step.appended]
    rw [hmap, (SourceMap.insertSorted_perm _ _).mem_iff, List.mem_cons] at hm
    obtain rfl | hm := hm
    · show (ofSteps before).offset < _
      omega
    · have hplaced := placed_ofSteps hm
      omega
  obtain ⟨rest, hmappings, -, hrest⟩ := mappings_foldl_push hfront after
  -- the copy is recorded in front of what does not start before it
  refine ⟨(ofSteps before).map.mappings.takeWhile (·.offset < (ofSteps before).offset),
    (ofSteps before).map.mappings.dropWhile (·.offset < (ofSteps before).offset), rest,
    ?_, ?_, ?_, ?_, ?_⟩
  · rw [ofSteps, List.foldl_append, List.foldl_cons, ← ofSteps, hmappings, hmap,
      SourceMap.insertSorted_eq]
    rfl
  · intro m hm
    simpa using List.mem_takeWhile_imp hm
  · exact fun m hm => placed_ofSteps ((List.dropWhile_sublist _).subset hm)
  · rw [List.dropWhile_eq_nil_iff, ← Bool.not_eq_true, ← exists_run_at_end_iff, not_exists]
    refine forall_congr' fun m => ?_
    rw [not_and]
    refine forall_congr' fun hm => ?_
    have hplaced := placed_ofSteps hm
    simp only [decide_eq_true_eq]
    omega
  · rwa [offset_push] at hrest

section

variable (before after : List Step) {t : List Char} (start : Nat) {k : Nat}

/-- The run of a copy is found unless a construct was replaced by nothing just before it; then no
run is found at all. -/
theorem find?_copy (hk : k < byteLength t) :
    (ofSteps (before ++ .copy t start :: after)).map.find? ((ofSteps before).offset + k) =
      if endsInGap before then none else some (copied (ofSteps before).offset t start) := by
  have ht : t ≠ [] := by
    rintro rfl
    cases hk
  obtain ⟨front, hidden, rest, hmappings, hfront, hhidden, hgap, hrest⟩ :=
    mappings_copy before after ht start
  have htake : (ofSteps (before ++ .copy t start :: after)).map.mappings.takeWhile
        (·.offset ≤ (ofSteps before).offset + k) =
      front ++ copied (ofSteps before).offset t start :: hidden := by
    rw [hmappings, List.takeWhile_append_of_pos]
    · cases rest with
      | nil => rw [List.takeWhile_nil, List.append_nil]
      | cons next rest =>
        have hle := hrest next List.mem_cons_self
        rw [List.takeWhile_cons_of_neg (by simp only [decide_eq_true_eq]; omega), List.append_nil]
    · intro m hm
      rw [decide_eq_true_eq]
      rw [List.mem_append, List.mem_cons] at hm
      obtain hm | rfl | hm := hm
      · have hlt := hfront m hm
        omega
      · exact Nat.le_add_right _ _
      · have hle := hhidden m hm
        omega
  rw [SourceMap.find?, htake]
  cases hidden with
  | nil =>
    rw [hgap.mp rfl, if_neg Bool.false_ne_true, List.getLast?_concat]
    refine Option.filter_some_pos (Mapping.covers_iff.mpr ?_)
    exact ⟨Nat.le_add_right _ _, Nat.add_lt_add_left hk _⟩
  | cons m hidden =>
    have htrue : endsInGap before = true := by
      rw [← Bool.not_eq_false, ← hgap]
      exact List.cons_ne_nil m hidden
    -- the last of the runs that hide the copy is looked at, and it covers nothing
    rw [htrue, if_pos rfl, List.getLast?_append_cons, List.getLast?_cons_cons,
      List.getLast?_eq_some_getLast (List.cons_ne_nil m hidden)]
    refine Option.filter_some_neg ?_
    have hle := hhidden _ (List.getLast_mem (List.cons_ne_nil m hidden))
    rw [← Bool.not_eq_true, Mapping.covers_iff]
    omega

/-- Offsets stay 32-bit words: the text of a splice ends at one, and so do the places of the source that
are copied. -/
structure Fits (steps : List Step) : Prop where
  text : (ofSteps steps).offset < 2 ^ 32
  copies : ∀ t start, .copy t start ∈ steps → start + byteLength t < 2 ^ 32

/-- A byte that was copied is led back to its place, if it is the first of its copy or if no
construct was replaced by nothing just before the copy. The run of the copy is found in the second
case only. If the splice fits into 32 bits, so do both offsets of the byte. -/
theorem sourceOffset?_of_copy (hk : k < byteLength t)
    (hfits : Fits (before ++ .copy t start :: after)) :
    ((ofSteps before).offset + k < 2 ^ 32 ∧ start + k < 2 ^ 32) ∧
    ((ofSteps (before ++ .copy t start :: after)).map.find? ((ofSteps before).offset + k) =
        some (copied (ofSteps before).offset t start) ↔ endsInGap before = false) ∧
    (k = 0 ∨ endsInGap before = false →
      (ofSteps (before ++ .copy t start :: after)).map.sourceOffset? ((ofSteps before).offset + k) =
        some (start + k)) := by
  have hstart := hfits.copies t start (by simp)
  have hoffset : (ofSteps before).offset + byteLength t < 2 ^ 32 := by
    have hle := offset_le_foldl_push ((ofSteps before).push (.copy t start)) after
    have hlt := hfits.text
    rw [ofSteps, List.foldl_append, List.foldl_cons] at hlt
    rw [offset_push] at hle
    exact hle.trans_lt hlt
  refine ⟨⟨by omega, by omega⟩, ?_⟩
  have hfind := find?_copy before after start hk
  cases hgap : endsInGap before with
  | false =>
    rw [hgap, if_neg Bool.false_ne_true] at hfind
    refine ⟨⟨fun _ => rfl, fun _ => hfind⟩, fun _ => ?_⟩
    rw [SourceMap.sourceOffset?, hfind]
    simp [copied, Mapping.sourceOf, Span.length]
  | true =>
    rw [hgap, if_pos rfl] at hfind
    refine ⟨⟨fun h => ?_, fun h => absurd h.symm Bool.false_ne_true⟩, ?_⟩
    · rw [hfind] at h
      cases h
    · rintro (rfl | hfalse)
      · -- no run covers the byte, so it is led to the first run that starts there: the copy
        have ht : t ≠ [] := by
          rintro rfl
          cases hk
        obtain ⟨front, hidden, rest, hmappings, hfront, -⟩ := mappings_copy before after ht start
        have hnone : front.find? ((ofSteps before).offset ≤ ·.offset) = none := by
          rw [List.find?_eq_none]
          intro m hm
          have hlt := hfront m hm
          simp only [decide_eq_true_eq]
          omega
        rw [SourceMap.sourceOffset?, hfind, hmappings, Nat.add_zero, List.append_assoc,
          List.find?_append, hnone, List.cons_append, List.find?_cons_of_pos (by simp [copied])]
        rfl
      · cases hfalse

end

/-- The second byte of a copy behind a construct that was replaced by nothing and some new text. -/
theorem sourceOffset?_of_copy_behind_text :
    endsInGap [.replacement [] ⟨7, 9⟩, .text ['[']] = false ∧
      (ofSteps [.replacement [] ⟨7, 9⟩, .text ['['], .copy ['a', 'b'] 40]).map.sourceOffset? 2 =
        some 41 := by
  have hfits : Fits [.replacement [] ⟨7, 9⟩, .text ['['], .copy ['a', 'b'] 40] :=
    ⟨by decide, fun t start h => by
      obtain ⟨rfl, rfl⟩ : t = ['a', 'b'] ∧ start = 40 := by simpa using h
      decide⟩
  exact ⟨by decide, (sourceOffset?_of_copy [.replacement [] ⟨7, 9⟩, .text ['[']] [] (t := ['a', 'b'])
    40 (k := 1) (by decide) hfits).2.2 (.inr (by decide))⟩

/-- The second byte of a copy right behind a construct that was replaced by nothing is led to the end
of that construct. -/
theorem copied_byte_lost :
    (ofSteps [.replacement [] ⟨7, 9⟩]).offset = 0 ∧
      (ofSteps [.replacement [] ⟨7, 9⟩, .copy ['a', 'b', 'c'] 40]).map.sourceOffset? 1 = some 9 := by
  decide

end Splice

end ComponentMarkup
