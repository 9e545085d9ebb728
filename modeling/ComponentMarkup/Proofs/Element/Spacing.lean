import ComponentMarkup.Proofs.Element.Reducing
import ComponentMarkup.Proofs.Markup.Widening

/-!
# Blanks in markup

Blanks that are put into a gap of a template give a template that stands for the same element.

Blanks in front of a close tag become part of the content, and are dropped from its end. Everywhere else
they are passed over (`Recognizes.widened`).
-/

namespace ComponentMarkup

open Text (byteLength)

variable {s t v v' x y : List Char} {node : Node} {e : Element} {gap : Span} {o : Nat}

/-- Blanks around the root of a template, after blanks were put into the gap between them. -/
theorem Blanks.insert (h : Blanks (x ++ y)) (hs : Blanks s) : Blanks (x ++ (s ++ y)) := by
  intro c hc
  simp only [List.mem_append] at hc
  obtain hc | hc | hc := hc
  · exact h c (List.mem_append_left y hc)
  · exact hs c hc
  · exact h c (List.mem_append_right x hc)

/-- The parts of a template after blanks were put into one of its gaps: blanks, the root and blanks. -/
theorem Recognizes.document_widened (hs : Blanks s) (hv : Blanks v) (hv' : Blanks v')
    (h : Recognizes (.element node e) (byteLength v) t v')
    (hgap : gap ∈ Node.blankGaps ⟨.document, .over 0 (v ++ t ++ v'), [node]⟩)
    (hxy : v ++ t ++ v' = x ++ y) (htouch : gap.Touches (byteLength x)) :
    ∃ r t' r' node', Blanks r ∧ Blanks r' ∧ x ++ s ++ y = r ++ t' ++ r' ∧
      Recognizes (.element node' e) (byteLength r) t' r' := by
  -- what comes before the root may change, and so may the root
  have hroot : ∀ {r b s'}, Blanks r → x ++ s ++ y = r ++ s' → Widens s b (t ++ v') s' →
      (Sense.element node e).Spares (byteLength b) (byteLength v) t v' →
      ∃ r t' r' node', Blanks r ∧ Blanks r' ∧ x ++ s ++ y = r ++ t' ++ r' ∧
        Recognizes (.element node' e) (byteLength r) t' r' := by
    intro r b s' hr htext hwide hspares
    obtain ⟨node', e', t', r', rfl, hmeets, hsame, hnode⟩ := h.widened hs hwide (byteLength r)
    rw [hsame hspares] at hnode
    exact ⟨r, t', r', node', hr, hmeets.allBlanks hs hv', by rw [htext, List.append_assoc], hnode⟩
  have hspan : node.span = .over (byteLength v) t := by cases h <;> rfl
  rw [Node.blankGaps, Node.blankGapsBetween, Node.blankGapsBetween, List.cons_append, List.mem_cons,
    List.mem_append, List.mem_singleton, hspan] at hgap
  obtain rfl | hgap | rfl := hgap
  · -- before the root
    obtain ⟨z, z', rfl, rfl, rfl⟩ := split_middle (p := []) (q := v) (r := t ++ v') (by simpa using hxy.symm)
      (Nat.zero_le _) htouch.2
    have hle : byteLength (t ++ v') ≤ byteLength (z' ++ (t ++ v')) := by
      rw [Text.byteLength_append z']
      exact Nat.le_add_left _ _
    exact hroot (hv.insert hs) (by simp) (.same hle) (.inr (.inl hle))
  · -- in the root
    obtain ⟨hfront, hback⟩ := (h.gapped gap hgap).bounds
    obtain ⟨hstart, hstop⟩ := id htouch
    obtain ⟨z, z', rfl, rfl, rfl⟩ := split_middle (p := v) (q := t) (r := v') hxy.symm (by omega)
      (by rw [Text.byteLength_append]; omega)
    rw [Text.byteLength_append] at htouch
    obtain ⟨hne, hparted⟩ := (h.gapped gap hgap).parted htouch
    have hwide := Widens.ahead (w := s) hne hparted
    rw [← List.append_assoc z z'] at hwide
    refine hroot hv (by simp) hwide (.inr (.inr ⟨gap, hgap, ?_⟩))
    rw [List.append_assoc, Text.byteLength_append z, ← Nat.add_assoc, Nat.add_sub_cancel]
    exact htouch
  · -- after the root
    obtain ⟨hstart, -⟩ := htouch
    change byteLength v + byteLength t ≤ _ at hstart
    have hwhole := congrArg byteLength hxy
    rw [Text.byteLength_append x] at hwhole
    obtain ⟨z, z', rfl, rfl, rfl⟩ := split_middle (p := v ++ t) (q := v') (r := [])
      (by simpa using hxy.symm) (by rw [Text.byteLength_append]; omega) (by omega)
    have hparted : PartedTexts (t ++ z) z' := fun p q _ hq =>
      parted_spacer (.inr (.inl (hv' q (List.mem_append_right z (List.mem_of_mem_head? hq)))))
    obtain ⟨w, name, more, ht, -, -⟩ := h.element_start
    have hwide := Widens.ahead (w := s) (by simp [ht]) hparted
    rw [List.append_assoc t z] at hwide
    refine hroot hv (by simp) hwide (.inl ?_)
    rw [Text.byteLength_append]
    exact Nat.le_add_left _ _

/-- Blanks that are put into a gap of a template do not change the element it stands for. -/
theorem Node.parse_insert_blanks {front back blanks : List Char} {tree : Node} {gap : Span}
    (hparse : Node.parse (front ++ back) = .ok tree) (hgap : gap ∈ tree.blankGaps)
    (htouch : gap.Touches (byteLength front)) (hblanks : Blanks blanks) :
    ∃ e tree' e', Element.ofNode (front ++ back) tree = .ok e ∧
      Node.parse (front ++ blanks ++ back) = .ok tree' ∧
      Element.ofNode (front ++ blanks ++ back) tree' = .ok e' ∧ e'.unplaced = e.unplaced := by
  obtain ⟨v, t, v', node, e, htemplate, hv, hv', rfl, hnode⟩ := Node.parse_eq_ok_iff.mp hparse
  rw [htemplate] at hgap
  obtain ⟨x, hx, hplain⟩ := Element.ofNode_of_recognizes (.over 0 (front ++ back)) hnode
  obtain ⟨r, t', r', node', hr, hr', htemplate', hnode'⟩ :=
    hnode.document_widened hblanks hv hv' hgap htemplate.symm htouch
  obtain ⟨tree', x', hparse', hx', hplain'⟩ := Element.exists_of_recognizes hr hr' hnode'
  rw [← htemplate] at hx
  rw [← htemplate'] at hparse' hx'
  exact ⟨x, tree', x', hx, hparse', hx', by rw [hplain, hplain']⟩

/-- Blanks after the text in front of a close tag. -/
theorem Node.parse_insert_blanks_before_closing :
    ∃ tree, Node.parse ("<p a=\x7bx: 1\x7d>t".toList ++ "</p>".toList) = .ok tree ∧
      ⟨13, 13⟩ ∈ tree.blankGaps ∧ ∃ e tree' e',
      Element.ofNode ("<p a=\x7bx: 1\x7d>t".toList ++ "</p>".toList) tree = .ok e ∧
      Node.parse ("<p a=\x7bx: 1\x7d>t".toList ++ [' ', '\n'] ++ "</p>".toList) = .ok tree' ∧
      Element.ofNode ("<p a=\x7bx: 1\x7d>t".toList ++ [' ', '\n'] ++ "</p>".toList) tree' = .ok e' ∧
      e'.unplaced = e.unplaced := by
  have hread : ∃ tree, Node.parse ("<p a=\x7bx: 1\x7d>t".toList ++ "</p>".toList) = .ok tree ∧
      ⟨13, 13⟩ ∈ tree.blankGaps := by
    refine ⟨?tree, ?parse, ?gap⟩
    case parse => set_option maxRecDepth 2000 in cbv; rfl
    case gap => exact List.mem_of_getElem? (i := 6) rfl
  obtain ⟨tree, htree, hgap⟩ := hread
  have hblanks : Blanks [' ', '\n'] := List.all_eq_true.mp rfl
  exact ⟨tree, htree, hgap, Node.parse_insert_blanks htree hgap ⟨by decide, by decide⟩ hblanks⟩

end ComponentMarkup
