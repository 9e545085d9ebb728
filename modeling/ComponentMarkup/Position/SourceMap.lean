import ComponentMarkup.Position.Span

/-!
# Source maps

Generated text is put together from runs of a source text. A `SourceMap` records, for each run,
where it stands in the generated text and which span of the source it comes from, and sends offsets
of the generated text back to the source. Offsets are meant to be 32-bit words: the sums below are
theirs as long as no run ends beyond the last word.
-/

namespace ComponentMarkup

/-- One run of generated text and the source span it stands for. The two lengths differ when a whole
construct of the source was replaced by a token. -/
structure Mapping where
  /-- Where the run starts in the generated text. -/
  offset : Nat
  /-- How many bytes of generated text it takes. -/
  length : Nat
  source : Span
deriving DecidableEq, Repr

namespace Mapping

/-- The generated offset falls into the run. -/
def covers (m : Mapping) (offset : Nat) : Bool :=
  m.offset ≤ offset && offset < m.offset + m.length

/-- The source offset of an offset inside the run: byte by byte when the run was copied, the start
of the construct when it was replaced. -/
def sourceOf (m : Mapping) (offset : Nat) : Nat :=
  if m.length = m.source.length then m.source.start + (offset - m.offset) else m.source.start

end Mapping

/-- Mappings in the order of their generated offsets. -/
structure SourceMap where
  mappings : List Mapping
deriving DecidableEq, Repr

namespace SourceMap

def empty : SourceMap :=
  ⟨[]⟩

/-- Put a mapping in front of the first one that starts no earlier. -/
def insertSorted (m : Mapping) : List Mapping → List Mapping
  | [] => [m]
  | x :: rest => if x.offset < m.offset then x :: insertSorted m rest else m :: x :: rest

def insert (map : SourceMap) (m : Mapping) : SourceMap :=
  ⟨insertSorted m map.mappings⟩

/-- The run that covers a generated offset: the last one to start no later, if it reaches that
far. -/
def find? (map : SourceMap) (offset : Nat) : Option Mapping :=
  (map.mappings.takeWhile (·.offset ≤ offset)).getLast?.filter (·.covers offset)

/-- The source offset of a generated offset. An offset between runs belongs to the start of the next
run, or to the end of the last one; a map without runs knows nothing. -/
def sourceOffset? (map : SourceMap) (offset : Nat) : Option Nat :=
  match map.find? offset with
  | some m => some (m.sourceOf offset)
  | none =>
    match map.mappings.find? (offset ≤ ·.offset) with
    | some next => some next.source.start
    | none => map.mappings.getLast?.map (·.source.stop)

end SourceMap

end ComponentMarkup
