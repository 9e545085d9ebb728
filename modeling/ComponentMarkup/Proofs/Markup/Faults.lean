import Mathlib
import ComponentMarkup.Proofs.Markup.Reading
import ComponentMarkup.Proofs.Position.Boundaries

/-!
# Where markup errors point

A reader of markup is always at a place between two characters, whatever it has tried, gone back from
or taken up again before. So the span of an error is whole, and the text under it is what the fault is
about.
-/

namespace ComponentMarkup

open Text (byteLength)

theorem MarkupError.Fits.isWhole {template : List Char} {e : MarkupError} (h : e.Fits template) :
    e.span.IsWhole template := by
  obtain ⟨front, t, rest, htext, hspan, -⟩ := h
  rw [hspan]
  exact .of_isAt ⟨front, rest, htext, rfl⟩

/-- Whatever template is not read, the error points at whole characters of it: those that its fault is
about. -/
theorem Node.whole_span_of_parse_error {template : List Char} {e : MarkupError}
    (h : Node.parse template = .error e) :
    e.span.start ≤ e.span.stop ∧ e.span.stop ≤ byteLength template ∧
      Text.IsBoundary template e.span.start ∧ Text.IsBoundary template e.span.stop ∧
      e.Fits template := by
  have hfits := MarkupError.fits_of_parse h
  have hwhole := hfits.isWhole
  exact ⟨hwhole.ordered, hwhole.stop.le_byteLength, hwhole.start, hwhole.stop, hfits⟩

/-- A close tag of another element, after characters of two and of three bytes. -/
theorem Node.whole_span_of_mismatched_tag :
    ∃ e : MarkupError, Node.parse "<p>\u00e9<b>\u20ac</ i\t></p>".toList = .error e ∧
      e.fault = .mismatchedTag "b" "i" ∧ e.span = ⟨11, 17⟩ ∧
      e.Fits "<p>\u00e9<b>\u20ac</ i\t></p>".toList := by
  have hparse : ∃ e : MarkupError, Node.parse "<p>\u00e9<b>\u20ac</ i\t></p>".toList = .error e ∧
      e.fault = .mismatchedTag "b" "i" ∧ e.span = ⟨11, 17⟩ := by
    refine ⟨?e, ?parse, ?fault, ?span⟩
    case parse => set_option maxRecDepth 2000 in cbv; rfl
    case fault => rfl
    case span => rfl
  obtain ⟨e, hparse, hfault, hspan⟩ := hparse
  obtain ⟨-, -, -, -, hfits⟩ := Node.whole_span_of_parse_error hparse
  exact ⟨e, hparse, hfault, hspan, hfits⟩

end ComponentMarkup
