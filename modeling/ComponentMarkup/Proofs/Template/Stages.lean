import ComponentMarkup.Proofs.Element.Reducing
import ComponentMarkup.Template.Basic

/-!
# Stages of compiling

Whatever can be read can be reduced, so a template fails at the first stage only if it cannot be
read.
-/

namespace ComponentMarkup

namespace Template

variable {text : List Char} {tree : Node} {root : Element} {vocabulary : Vocabulary}

theorem compile_of_unread {e : MarkupError} (vocabulary : Vocabulary)
    (h : Node.parse text = .error e) : compile vocabulary text = .error (.ofMarkup text e) := by
  rw [compile, h]
  rfl

theorem compile_of_reduced (vocabulary : Vocabulary) (hparse : Node.parse text = .ok tree)
    (hroot : Element.ofNode text tree = .ok root) :
    compile vocabulary text =
      match root.lower text vocabulary with
      | .ok expr => .ok ⟨expr⟩
      | .error e => .error (.ofCompile text e) := by
  rw [compile, hparse]
  change ((Element.ofNode text tree).mapError _ >>= _) = _
  rw [hroot]
  change ((root.lower text vocabulary).mapError _ >>= _) = _
  cases root.lower text vocabulary <;> rfl

theorem exists_of_compile {t : Template} (h : compile vocabulary text = .ok t) :
    ∃ tree root, Node.parse text = .ok tree ∧ Element.ofNode text tree = .ok root ∧
      AllFrom text root.sources tree.embedded ∧ root.lower text vocabulary = .ok t.expr := by
  cases hparse : Node.parse text with
  | error e =>
    rw [compile_of_unread vocabulary hparse] at h
    cases h
  | ok tree =>
    obtain ⟨root, hrun, hfrom⟩ := Element.ofNode_of_parse hparse
    have hroot : Element.ofNode text tree = .ok root := run'_eq_ok.mpr ⟨[], hrun⟩
    rw [compile_of_reduced vocabulary hparse hroot] at h
    cases hlower : root.lower text vocabulary with
    | error e =>
      rw [hlower] at h
      cases h
    | ok x =>
      rw [hlower] at h
      cases h
      exact ⟨tree, root, rfl, hroot, hfrom, hlower⟩

/-- A fact about the compiled expression that is computed from the root element. -/
theorem exists_of_lower {β : Type} {f : Expr → β} {b : β} (hparse : Node.parse text = .ok tree)
    (hroot : Element.ofNode text tree = .ok root)
    (hlower : (root.lower text vocabulary).toOption.map f = some b) :
    ∃ t, compile vocabulary text = .ok t ∧ f t.expr = b := by
  rw [compile_of_reduced vocabulary hparse hroot]
  cases hx : root.lower text vocabulary with
  | error e =>
    rw [hx] at hlower
    cases hlower
  | ok x =>
    rw [hx] at hlower
    cases hlower
    exact ⟨⟨x⟩, rfl, rfl⟩

end Template

/-- Every tree that is read from a template reduces to an element, and no nested element is left
over. The expressions of the element are those of the tree, each with the nested elements of its
node. So compiling fails at the first stage exactly if the template cannot be read. -/
theorem Element.ofNode_total (template : List Char) :
    (∀ tree, Node.parse template = .ok tree →
      ∃ root, Reduction.root template tree [] = .ok (root, []) ∧
        Element.ofNode template tree = .ok root ∧
        List.Forall₂ EmbeddedExpr.IsOf root.sources tree.embedded) ∧
      ∀ vocabulary, (∃ e, Template.compile vocabulary template = .error e ∧ e.stage = "parse") ↔
        ∃ e, Node.parse template = .error e := by
  have htotal : ∀ tree, Node.parse template = .ok tree →
      ∃ root, Reduction.root template tree [] = .ok (root, []) ∧
        Element.ofNode template tree = .ok root ∧
        List.Forall₂ EmbeddedExpr.IsOf root.sources tree.embedded := by
    intro tree htree
    obtain ⟨root, hroot, hfrom⟩ := Element.ofNode_of_parse htree
    exact ⟨root, hroot, run'_eq_ok.mpr ⟨[], hroot⟩, hfrom.imp fun _ _ h => h.2⟩
  refine ⟨htotal, fun vocabulary => ⟨?_, ?_⟩⟩
  · rintro ⟨e, he, hstage⟩
    cases hparse : Node.parse template with
    | error e => exact ⟨e, rfl⟩
    | ok tree =>
      obtain ⟨root, -, hroot, -⟩ := htotal tree hparse
      rw [Template.compile_of_reduced vocabulary hparse hroot] at he
      cases hlower : root.lower template vocabulary with
      | ok expr =>
        rw [hlower] at he
        cases he
      | error e' =>
        rw [hlower] at he
        cases he
        exact absurd hstage (show "compile" ≠ "parse" by decide)
  · rintro ⟨e, he⟩
    exact ⟨.ofMarkup template e, Template.compile_of_unread vocabulary he, rfl⟩

/-- Nested elements in a key and a value between braces, and one inside of another. -/
theorem Element.ofNode_total_of_nested :
    ∃ tree root, Node.parse "<p a=\x7b(<b x=[(<i/>)]/>): f((<u/>))\x7d/>".toList = .ok tree ∧
      Element.ofNode "<p a=\x7b(<b x=[(<i/>)]/>): f((<u/>))\x7d/>".toList tree = .ok root ∧
      tree.embedded.map (fun node => node.outermost.map (·.span)) =
        [[⟨6, 23⟩, ⟨27, 33⟩], [⟨13, 19⟩]] ∧
      List.Forall₂ EmbeddedExpr.IsOf root.sources tree.embedded := by
  have hread : ∃ tree,
      Node.parse "<p a=\x7b(<b x=[(<i/>)]/>): f((<u/>))\x7d/>".toList = .ok tree ∧
        tree.embedded.map (fun node => node.outermost.map (·.span)) =
          [[⟨6, 23⟩, ⟨27, 33⟩], [⟨13, 19⟩]] := by
    refine ⟨?tree, ?parse, ?nested⟩
    case parse => set_option maxRecDepth 2000 in cbv; rfl
    case nested => rfl
  obtain ⟨tree, htree, hnested⟩ := hread
  obtain ⟨root, -, hroot, hsources⟩ := (Element.ofNode_total _).1 tree htree
  exact ⟨tree, root, htree, hroot, hnested, hsources⟩

end ComponentMarkup
