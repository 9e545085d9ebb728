import ComponentMarkup.Position.Splice
import Mathlib

/-!
# Where generated bytes come from

A byte of generated text was copied from a place of the source, or it was made on the way and has no
place there. `Splice.Traces` says that a splice is put together from such bytes: its text is theirs,
and its source map leads every copied byte back to its place. Each way of appending text keeps this.
-/

namespace ComponentMarkup

namespace Text

/-- The bytes of a text in UTF-8. -/
def bytes (text : List Char) : List UInt8 :=
  text.flatMap String.utf8EncodeChar

theorem bytes_append (front back : List Char) : bytes (front ++ back) = bytes front ++ bytes back :=
  List.flatMap_append

theorem length_bytes (text : List Char) : (bytes text).length = byteLength text := by
  induction text with
  | nil => rfl
  | cons c text ih =>
    rw [bytes, List.flatMap_cons, List.length_append, String.length_utf8EncodeChar, byteLength_cons]
    exact congrArg _ ih

end Text

open Text (byteLength bytes)

/-- A byte of generated text, with the place of the source that it was copied from. -/
structure TracedByte where
  byte : UInt8
  origin : Option Nat
deriving DecidableEq

namespace TracedByte

/-- The bytes of a text that was copied from an offset of the source. -/
def copied (text : List Char) (start : Nat) : List TracedByte :=
  (bytes text).mapIdx fun i b => ⟨b, some (start + i)⟩

/-- The bytes of a text that has no counterpart in the source. -/
def made (text : List Char) : List TracedByte :=
  (bytes text).map (⟨·, none⟩)

theorem copied_append (t u : List Char) (o : Nat) :
    copied (t ++ u) o = copied t o ++ copied u (o + byteLength t) := by
  rw [copied, Text.bytes_append, List.mapIdx_append, Text.length_bytes]
  simp only [Nat.add_comm _ (byteLength t), ← Nat.add_assoc]
  rfl

@[simp]
theorem length_copied (t : List Char) (o : Nat) : (copied t o).length = byteLength t := by
  rw [copied, List.length_mapIdx, Text.length_bytes]

@[simp]
theorem length_made (t : List Char) : (made t).length = byteLength t := by
  rw [made, List.length_map, Text.length_bytes]

@[simp]
theorem map_byte_copied (t : List Char) (o : Nat) : (copied t o).map byte = bytes t := by
  apply List.ext_getElem?
  intro i
  rw [List.getElem?_map, copied, List.getElem?_mapIdx, Option.map_map]
  exact congrFun Option.map_id (bytes t)[i]?

@[simp]
theorem map_byte_made (t : List Char) : (made t).map byte = bytes t := by
  rw [made, List.map_map]
  exact List.map_id _

/-- The places that bytes were copied from, in the order of the bytes. -/
def origins (code : List TracedByte) : List Nat :=
  code.filterMap origin

@[simp]
theorem origins_append (code more : List TracedByte) :
    origins (code ++ more) = origins code ++ origins more :=
  List.filterMap_append

@[simp]
theorem origins_made (t : List Char) : origins (made t) = [] := by
  rw [origins, made, List.filterMap_map, List.filterMap_eq_nil_iff]
  intro b _
  rfl

theorem origins_copied (t : List Char) (o : Nat) : origins (copied t o) = List.range' o (byteLength t) := by
  have hsome : ∀ bs : List UInt8, ∀ o : Nat,
      origins (bs.mapIdx fun i b => ⟨b, some (o + i)⟩) = List.range' o bs.length := by
    intro bs
    induction bs with
    | nil => exact fun _ => rfl
    | cons b bs ih =>
      intro o
      rw [List.mapIdx_cons, List.length_cons, List.range'_succ, ← ih (o + 1)]
      simp only [Nat.add_zero, origins, List.filterMap_cons, Nat.add_assoc, Nat.add_comm 1]
  rw [copied, hsome, Text.length_bytes]

/-- A copied byte stands in the source at the place it was copied from. -/
theorem byte_of_mem_copied {front t back : List Char} {b : UInt8} {s : Nat}
    (h : ⟨b, some s⟩ ∈ copied t (byteLength front)) :
    (bytes (front ++ t ++ back))[s]? = some b ∧ byteLength front ≤ s ∧
      s < byteLength front + byteLength t := by
  obtain ⟨i, hi, hb⟩ := List.mem_mapIdx.mp h
  cases hb
  rw [Text.bytes_append, Text.bytes_append, List.append_assoc]
  have hlen := Text.length_bytes front
  have hlen' := Text.length_bytes t
  refine ⟨?_, Nat.le_add_right _ _, by omega⟩
  rw [List.getElem?_append_right (by omega), hlen, Nat.add_sub_cancel_left,
    List.getElem?_append_left hi]
  exact List.getElem?_eq_getElem hi

end TracedByte

/-! ## Looking up offsets -/

namespace Mapping

variable {m : Mapping} {i : Nat}

/-- A run comes from inside of a span. -/
structure Inside (span : Span) (m : Mapping) : Prop where
  start : span.start ≤ m.source.start
  le : m.source.start ≤ m.source.stop
  stop : m.source.stop ≤ span.stop

theorem covers_iff : m.covers i = true ↔ m.offset ≤ i ∧ i < m.offset + m.length := by
  simp [covers]

theorem Inside.sourceOf (h : m.Inside span) (hi : m.covers i = true) :
    span.start ≤ m.sourceOf i ∧ m.sourceOf i ≤ span.stop := by
  have hstart := h.start
  have hle := h.le
  have hstop := h.stop
  rw [covers_iff] at hi
  unfold Mapping.sourceOf
  split
  · rename_i hlength
    rw [Span.length] at hlength
    omega
  · omega

end Mapping

namespace SourceMap

variable {map : SourceMap} {i s : Nat}

/-- Runs follow each other without overlapping, and none of them is empty. -/
structure InOrder (map : SourceMap) (stop : Nat) : Prop where
  apart : map.mappings.Pairwise fun a b => a.offset + a.length ≤ b.offset
  placed : ∀ m ∈ map.mappings, 0 < m.length ∧ m.offset + m.length ≤ stop

theorem insertSorted_of_lt {ms : List Mapping} (h : ∀ x ∈ ms, x.offset < m.offset) :
    insertSorted m ms = ms ++ [m] := by
  induction ms with
  | nil => rfl
  | cons x rest ih =>
    rw [insertSorted, if_pos (h x List.mem_cons_self),
      ih fun y hy => h y (List.mem_cons_of_mem x hy), List.cons_append]

section

variable {map : SourceMap} {stop : Nat} {m : Mapping}

/-- A run that starts after all others is recorded behind them. -/
theorem InOrder.mappings_insert (h : map.InOrder stop) (hm : m.offset = stop) :
    (map.insert m).mappings = map.mappings ++ [m] := by
  apply insertSorted_of_lt
  intro x hx
  have hplaced := h.placed x hx
  omega

theorem InOrder.insert (h : map.InOrder stop) (hm : m.offset = stop) (hpos : 0 < m.length) :
    (map.insert m).InOrder (stop + m.length) := by
  constructor
  · rw [h.mappings_insert hm, List.pairwise_append]
    refine ⟨h.apart, List.pairwise_singleton _ m, fun a ha b hb => ?_⟩
    have hplaced := h.placed a ha
    rw [List.mem_singleton.mp hb]
    omega
  · intro x hx
    rw [h.mappings_insert hm, List.mem_append, List.mem_singleton] at hx
    obtain hx | rfl := hx
    · have hplaced := h.placed x hx
      omega
    · omega

theorem InOrder.find?_eq (h : map.InOrder stop) (hm : m ∈ map.mappings) (hi : m.covers i = true) :
    map.find? i = some m := by
  obtain ⟨before, after, hsplit⟩ := List.append_of_mem hm
  have hapart := h.apart
  rw [hsplit, List.pairwise_append, List.pairwise_cons] at hapart
  obtain ⟨-, ⟨hafter, -⟩, hbefore⟩ := hapart
  have hcovers := Mapping.covers_iff.mp hi
  -- all runs up to this one start no later than the offset, and the next one starts after it
  have htake : map.mappings.takeWhile (·.offset ≤ i) = before ++ [m] := by
    rw [hsplit, List.takeWhile_append_of_pos, List.takeWhile_cons_of_pos (by simpa using hcovers.1)]
    · congr 2
      cases after with
      | nil => rfl
      | cons next after =>
        have hnext := hafter next List.mem_cons_self
        exact List.takeWhile_cons_of_neg (by simp; omega)
    · intro x hx
      have hx := hbefore x hx m List.mem_cons_self
      simp
      omega
  rw [find?, htake, List.getLast?_concat]
  exact Option.filter_some_pos hi

theorem InOrder.sourceOffset?_eq (h : map.InOrder stop) (hm : m ∈ map.mappings)
    (hi : m.covers i = true) : map.sourceOffset? i = some (m.sourceOf i) := by
  rw [sourceOffset?, h.find?_eq hm hi]

end

/-- An offset is led to its place in the run that covers it, or to the start or the end of a run. -/
theorem sourceOffset?_cases {P : Nat → Prop}
    (hcovered : ∀ m ∈ map.mappings, m.covers i = true → P (m.sourceOf i))
    (hstart : ∀ m ∈ map.mappings, P m.source.start) (hstop : ∀ m ∈ map.mappings, P m.source.stop)
    (hs : map.sourceOffset? i = some s) : P s := by
  unfold sourceOffset? at hs
  split at hs
  · rename_i m hfind
    obtain ⟨hlast, hcovers⟩ := Option.filter_eq_some_iff.mp hfind
    cases hs
    exact hcovered m ((List.takeWhile_sublist _).subset (List.mem_of_getLast? hlast)) hcovers
  · split at hs
    · rename_i next hnext
      cases hs
      exact hstart next (List.mem_of_find?_eq_some hnext)
    · obtain ⟨last, hlast, rfl⟩ := Option.map_eq_some_iff.mp hs
      exact hstop last (List.mem_of_getLast? hlast)

/-- Whatever the offset, it is led to the span that all runs come from. -/
theorem sourceOffset?_inside (h : ∀ m ∈ map.mappings, m.Inside span)
    (hs : map.sourceOffset? i = some s) : span.start ≤ s ∧ s ≤ span.stop := by
  refine sourceOffset?_cases (P := fun s => span.start ≤ s ∧ s ≤ span.stop)
    (fun m hm hcovers => (h m hm).sourceOf hcovers) (fun m hm => ?_) (fun m hm => ?_) hs
  · exact ⟨(h m hm).start, Nat.le_trans (h m hm).le (h m hm).stop⟩
  · exact ⟨Nat.le_trans (h m hm).start (h m hm).le, (h m hm).stop⟩

end SourceMap

/-! ## Appending text -/

namespace Splice

/-- A splice is put together from traced bytes, the copied ones of them from inside of a span. -/
structure Traces (span : Span) (s : Splice) (code : List TracedByte) : Prop where
  text : bytes s.text = code.map TracedByte.byte
  order : s.map.InOrder s.offset
  inside : ∀ m ∈ s.map.mappings, m.Inside span
  back : ∀ i b o, code[i]? = some ⟨b, some o⟩ →
    ∃ m ∈ s.map.mappings, m.covers i = true ∧ m.sourceOf i = o

section

variable {span : Span} {s : Splice} {code : List TracedByte} {text : List Char} {source : Span}

theorem traces_empty (span : Span) : Traces span .empty [] where
  text := rfl
  order := ⟨.nil, fun _ hm => absurd hm List.not_mem_nil⟩
  inside _ hm := absurd hm List.not_mem_nil
  back i b o h := by simp at h

theorem Traces.length_eq (h : Traces span s code) : code.length = s.offset := by
  rw [offset, ← Text.length_bytes, h.text, List.length_map]

/-- The source map leads a copied byte back to its place. -/
theorem Traces.sourceOffset?_eq (h : Traces span s code) {b : UInt8} {o : Nat}
    (hi : code[i]? = some ⟨b, some o⟩) : s.map.sourceOffset? i = some o := by
  obtain ⟨m, hm, hcovers, rfl⟩ := h.back i b o hi
  exact h.order.sourceOffset?_eq hm hcovers

theorem offset_append (s : Splice) (text : List Char) (map : SourceMap) :
    offset ⟨s.text ++ text, map⟩ = s.offset + byteLength text :=
  Text.byteLength_append s.text text

theorem Traces.pushText (h : Traces span s code) (text : List Char) :
    Traces span (s.pushText text) (code ++ TracedByte.made text) where
  text := by
    show bytes (s.text ++ text) = _
    rw [Text.bytes_append, h.text, List.map_append, TracedByte.map_byte_made]
  order := by
    refine ⟨h.order.apart, fun m hm => ?_⟩
    have hplaced := h.order.placed m hm
    rw [Splice.pushText, offset_append]
    omega
  inside := h.inside
  back i b o hi := by
    apply h.back i b o
    by_cases hlt : i < code.length
    · rwa [List.getElem?_append_left hlt] at hi
    · -- the appended bytes have no place in the source
      rw [List.getElem?_append_right (Nat.not_lt.mp hlt), TracedByte.made, List.getElem?_map,
        Option.map_eq_some_iff] at hi
      obtain ⟨_, -, hnone⟩ := hi
      cases hnone

theorem Traces.pushRun (h : Traces span s code) (hne : text ≠ []) {more : List TracedByte}
    (hmore : more.map TracedByte.byte = bytes text)
    (hinside : Mapping.Inside span ⟨s.offset, byteLength text, source⟩)
    (hback : ∀ k b o, more[k]? = some ⟨b, some o⟩ → k < byteLength text ∧
      Mapping.sourceOf ⟨s.offset, byteLength text, source⟩ (s.offset + k) = o) :
    Traces span ⟨s.text ++ text, s.map.insert ⟨s.offset, byteLength text, source⟩⟩
      (code ++ more) := by
  have hpos : 0 < byteLength text := by
    rw [← Text.length_bytes, ← hmore, List.length_map, List.length_pos_iff]
    rintro rfl
    have hzero : byteLength text = 0 := by rw [← Text.length_bytes, ← hmore]; rfl
    cases text with
    | nil => exact hne rfl
    | cons c text =>
      have hc := c.utf8Size_pos
      rw [Text.byteLength_cons] at hzero
      omega
  have hmappings := h.order.mappings_insert
    (m := ⟨s.offset, byteLength text, source⟩) rfl
  constructor
  · rw [Text.bytes_append, h.text, List.map_append, hmore]
  · rw [offset_append]
    exact h.order.insert rfl hpos
  · intro m hm
    rw [hmappings, List.mem_append, List.mem_singleton] at hm
    obtain hm | rfl := hm
    · exact h.inside m hm
    · exact hinside
  · intro i b o hi
    rw [hmappings]
    by_cases hlt : i < code.length
    · rw [List.getElem?_append_left hlt] at hi
      obtain ⟨m, hm, hcovers, hsource⟩ := h.back i b o hi
      exact ⟨m, List.mem_append_left _ hm, hcovers, hsource⟩
    · rw [List.getElem?_append_right (Nat.not_lt.mp hlt), h.length_eq] at hi
      obtain ⟨hk, hsource⟩ := hback (i - s.offset) b o hi
      have hoffset : s.offset + (i - s.offset) = i := by
        have hlen := h.length_eq
        omega
      rw [hoffset] at hsource
      refine ⟨_, List.mem_append_right _ List.mem_cons_self, ?_, hsource⟩
      rw [Mapping.covers_iff]
      show s.offset ≤ i ∧ i < s.offset + byteLength text
      omega

theorem Traces.pushCopy (h : Traces span s code) (text : List Char) {start : Nat}
    (hstart : span.start ≤ start) (hstop : start + byteLength text ≤ span.stop) :
    Traces span (s.pushCopy text start) (code ++ TracedByte.copied text start) := by
  cases text with
  | nil =>
    show Traces span s (code ++ [])
    rwa [List.append_nil]
  | cons c text =>
    refine h.pushRun (List.cons_ne_nil c text) (TracedByte.map_byte_copied _ start)
      ⟨hstart, Nat.le_add_right _ _, hstop⟩ fun k b o hk => ?_
    obtain ⟨hlt, hbyte⟩ := List.getElem?_eq_some_iff.mp hk
    rw [TracedByte.length_copied] at hlt
    refine ⟨hlt, ?_⟩
    simp only [TracedByte.copied, List.getElem_mapIdx, TracedByte.mk.injEq, Option.some.injEq]
      at hbyte
    rw [Mapping.sourceOf, if_pos (by simp [Span.length]), Nat.add_sub_cancel_left]
    exact hbyte.2

theorem Traces.pushReplacement (h : Traces span s code) (hne : text ≠ [])
    (hstart : span.start ≤ source.start) (hle : source.start ≤ source.stop)
    (hstop : source.stop ≤ span.stop) :
    Traces span (s.pushReplacement text source) (code ++ TracedByte.made text) := by
  refine h.pushRun hne (TracedByte.map_byte_made text) ⟨hstart, hle, hstop⟩ fun k b o hk => ?_
  rw [TracedByte.made, List.getElem?_map, Option.map_eq_some_iff] at hk
  obtain ⟨_, -, hnone⟩ := hk
  cases hnone

end

end Splice

end ComponentMarkup
