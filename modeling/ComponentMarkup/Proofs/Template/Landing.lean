import ComponentMarkup.Proofs.Expr.Faults
import ComponentMarkup.Proofs.Template.SourceMaps

/-!
# Where errors land

The source map leads the places that a syntax error may point at to boundaries of the template. In a
copied run every boundary is one of the template. A placeholder may by chance be as long as what it
stands for, and its bytes are then led into the middle of a nested element; but of a name in parentheses
the lexer looks at the parentheses and at the start of the name only, and a nested element stands in
parentheses too.
-/

namespace ComponentMarkup

open Text (byteLength IsBoundary)
open Lexer (IsName Reaches)

variable {text : List Char} {span : Span}

/-! ## Runs -/

namespace Mapping

/-- What a run of a text stands for in the template. -/
inductive Leads (template text : List Char) : Mapping → Prop where
  /-- A copied text stands for itself. -/
  | copy {o s : Nat} {u : List Char} : IsAt text u o → IsAt template u s →
      Leads template text ⟨o, byteLength u, .over s u⟩
  /-- A name in parentheses stands for a part of the template in parentheses. -/
  | gap {o s : Nat} {name : String} {body : List Char} : IsName name →
      IsAt text ('(' :: name.toList ++ [')']) o → IsAt template ('(' :: body ++ [')']) s →
      Leads template text
        ⟨o, byteLength ('(' :: name.toList ++ [')']), .over s ('(' :: body ++ [')'])⟩

section

variable {template text : List Char} {m : Mapping} {p : Nat}

theorem Leads.append_right (h : m.Leads template text) (more : List Char) :
    m.Leads template (text ++ more) := by
  cases h with
  | copy htext hsource => exact .copy (htext.append_right more) hsource
  | gap hname htext hsource => exact .gap hname (htext.append_right more) hsource

theorem Leads.isWhole (h : m.Leads template text) : m.source.IsWhole template := by
  cases h with
  | copy _ hsource => exact .of_isAt hsource
  | gap _ _ hsource => exact .of_isAt hsource

/-- A place that an error may point at is led to a boundary of the template. -/
theorem Leads.isBoundary_sourceOf (h : m.Leads template text) (hp : Reaches text p)
    (hcovers : m.covers p = true) : IsBoundary template (m.sourceOf p) := by
  rw [covers_iff] at hcovers
  unfold sourceOf
  cases h with
  | @copy o s u htext hsource =>
    have hlength : (Span.over s u).length = byteLength u := Nat.add_sub_cancel_left _ _
    rw [if_pos hlength.symm]
    exact .of_isAt hsource (hp.isBoundary.sub_of_isAt htext hcovers.1 (Nat.le_of_lt hcovers.2))
  | @gap o s name body hname htext hsource =>
    have hstart : IsBoundary template s := .of_isAt_start hsource
    have hinner : IsAt template body (s + 1) := hsource.inside rfl
    split
    · next hlength =>
      -- the name is as long as what stands between the parentheses of the template
      have hlength : byteLength ('(' :: name.toList ++ [')']) =
          s + byteLength ('(' :: body ++ [')']) - s := hlength
      rw [Text.byteLength_enclosed, Nat.add_sub_cancel_left, Text.byteLength_enclosed] at hlength
      simp only [Text.byteLength_enclosed] at hcovers
      obtain ⟨front, back, rfl, rfl⟩ := htext
      obtain hp | rfl := hp
      · have hvisit := hp.of_enclosed hname
        rw [Text.byteLength_enclosed] at hvisit
        have hplace : p - byteLength front = 0 ∨ p - byteLength front = 1 ∨
            p - byteLength front = 1 + byteLength body := by
          omega
        show IsBoundary template (s + (p - byteLength front))
        obtain hplace | hplace | hplace := hplace
        · rwa [hplace]
        · rw [hplace]
          exact .of_isAt_start hinner
        · rw [hplace, ← Nat.add_assoc]
          exact .of_isAt_stop hinner
      · rw [Text.byteLength_append, Text.byteLength_append, Text.byteLength_enclosed] at hcovers
        omega
    · exact hstart

end

end Mapping

/-! ## Splices -/

theorem SourceMap.mem_insert {map : SourceMap} {m x : Mapping} (h : x ∈ (map.insert m).mappings) :
    x = m ∨ x ∈ map.mappings := by
  have hsorted : ∀ ms : List Mapping, x ∈ insertSorted m ms → x = m ∨ x ∈ ms := by
    intro ms hx
    fun_induction insertSorted m ms with
    | case1 => exact .inl (List.mem_singleton.mp hx)
    | case2 y rest _ ih =>
      obtain rfl | hx := List.mem_cons.mp hx
      · exact .inr List.mem_cons_self
      · exact (ih hx).imp_right (List.mem_cons_of_mem y)
    | case3 y rest _ => exact List.mem_cons.mp hx
  exact hsorted map.mappings h

namespace Splice

/-- All runs of a splice stand for parts of the template. -/
def Leads (template : List Char) (s : Splice) : Prop :=
  ∀ m ∈ s.map.mappings, m.Leads template s.text

section

variable {template : List Char} {s : Splice} {start : Nat}

theorem leads_empty : Leads template .empty :=
  List.forall_mem_nil _

theorem Leads.pushText (h : s.Leads template) (text : List Char) : (s.pushText text).Leads template :=
  fun m hm => (h m hm).append_right text

/-- A new run at the end. -/
theorem Leads.pushRun (h : s.Leads template) {m : Mapping}
    (hm : m.Leads template (s.text ++ text)) : Leads template ⟨s.text ++ text, s.map.insert m⟩ := by
  intro x hx
  obtain rfl | hx := SourceMap.mem_insert hx
  · exact hm
  · exact (h x hx).append_right text

theorem Leads.pushCopy (h : s.Leads template) (hat : IsAt template text start) :
    (s.pushCopy text start).Leads template := by
  unfold Splice.pushCopy
  split
  · exact h
  · exact h.pushRun (.copy (isAt_append s.text text) hat)

theorem Leads.pushReplacement (h : s.Leads template) {name : String} {body : List Char}
    (hname : IsName name) (hat : IsAt template ('(' :: body ++ [')']) start) :
    (s.pushReplacement ('(' :: name.toList ++ [')']) (.over start ('(' :: body ++ [')']))).Leads
      template :=
  h.pushRun (.gap hname (isAt_append s.text _) hat)

/-- An error in the text that was put together is led to a boundary of the template. -/
theorem Leads.isBoundary_sourceOffset? (h : s.Leads template) {p o : Nat} (hp : Reaches s.text p)
    (ho : s.map.sourceOffset? p = some o) : IsBoundary template o :=
  SourceMap.sourceOffset?_cases (fun m hm hcovers => (h m hm).isBoundary_sourceOf hp hcovers)
    (fun m hm => (h m hm).isWhole.start) (fun m hm => (h m hm).isWhole.stop) ho

end

end Splice

/-! ## Pieces -/

namespace Lowering

/-- Where a piece comes from: a copied text from where it stands in the template, a placeholder from a
part of the template in parentheses. -/
def Piece.Stands (template : List Char) : Piece → Prop
  | .copy text start => IsAt template text start
  | .gap name span _ => IsName name ∧ span.IsEnclosed template

section

variable {template text t : List Char} {cuts : List Span} {s : Splice} {o start : Nat}
  {pieces : List Piece}

theorem leads_spliceCopy {front back : List Char} (horder : Dedent.InOrder cuts)
    (hcuts : ∀ cut ∈ cuts, Dedent.IsCut text cut) (htext : text = front ++ t ++ back)
    (hsource : IsAt template t start) (h : s.Leads template) :
    (spliceCopy cuts (byteLength front) t start s).Leads template := by
  obtain ⟨parts, hparts, hcopy, -⟩ := exists_parts_of_spliceCopy horder hcuts (fun _ t => t)
    Char.utf8Size_pos (fun _ _ _ => rfl) (fun _ => Dedent.sum_utf8Size) htext start s
  rw [hcopy]
  clear hcopy
  induction parts generalizing s with
  | nil => exact h
  | cons p parts ih =>
    obtain ⟨⟨x, hx⟩, hparts⟩ := List.forall_mem_cons.mp hparts
    exact ih (h.pushCopy (hsource.trans ⟨p.1, x, hx, rfl⟩)) hparts

theorem leads_splicePieces (horder : Dedent.InOrder cuts) (hcuts : ∀ cut ∈ cuts, Dedent.IsCut text cut)
    (hpieces : ∀ piece ∈ pieces, piece.Stands template) (front : List Char)
    (htext : text = front ++ pieces.flatMap Piece.text) (h : s.Leads template) :
    (splicePieces cuts (byteLength front) s pieces).Leads template := by
  induction pieces generalizing front s with
  | nil => exact h
  | cons piece rest ih =>
    have hpiece := hpieces piece List.mem_cons_self
    have hrest : ∀ p ∈ rest, p.Stands template := fun p hp => hpieces p (List.mem_cons_of_mem piece hp)
    rw [List.flatMap_cons, ← List.append_assoc] at htext
    cases piece with
    | copy t start =>
      rw [splicePieces, ← Text.byteLength_append]
      exact ih hrest (front ++ t) htext (leads_spliceCopy horder hcuts htext hpiece h)
    | gap name span filling =>
      obtain ⟨hname, start, body, hat, rfl⟩ := hpiece
      rw [splicePieces, ← Text.byteLength_append]
      exact ih hrest _ htext (h.pushReplacement hname hat)

theorem leads_spliceExpr (kind : FragmentKind) (hpieces : ∀ piece ∈ pieces, piece.Stands template) :
    (spliceExpr kind pieces).Leads template := by
  obtain ⟨horder, hcuts⟩ := Dedent.cuts_spec (pieces.flatMap Piece.text)
  have hempty : Splice.Leads template .empty := Splice.leads_empty
  cases kind with
  | scalar => exact leads_splicePieces horder hcuts hpieces [] rfl hempty
  | list => exact (leads_splicePieces horder hcuts hpieces [] rfl (hempty.pushText ['['])).pushText [']']

end

end Lowering

/-- A span that starts at a boundary and covers one byte of the text, or none. -/
structure Span.IsPoint (text : List Char) (span : Span) : Prop where
  start : IsBoundary text span.start
  stop : span.stop = span.start ∨ span.stop = span.start + 1 ∧ span.start < byteLength text

/-- An error in the source of an expression points at a boundary of the template. -/
theorem Lowering.isPoint_of_readPieces {template : List Char} {kind : FragmentKind}
    {pieces : List Piece} {e : CompileError} (hspan : span.IsWhole template)
    (hpieces : ∀ piece ∈ pieces, piece.Stands template)
    (h : readPieces kind span pieces = .error e) :
    (∃ fault, e.fault = .invalidExpression fault) ∧ e.span.IsPoint template := by
  unfold readPieces at h
  dsimp only at h
  split at h
  · cases h
  · next err herr =>
    cases h
    refine ⟨⟨err.fault, rfl⟩, ?_⟩
    have hstart : IsBoundary template
        (((spliceExpr kind pieces).map.sourceOffset? err.offset).getD span.start) := by
      cases ho : (spliceExpr kind pieces).map.sourceOffset? err.offset with
      | none => exact hspan.start
      | some o =>
        have hleads := leads_spliceExpr kind hpieces
        exact hleads.isBoundary_sourceOffset? (Expr.reaches_of_parse herr) ho
    refine ⟨hstart, ?_⟩
    have hend := hspan.stop.le_byteLength
    unfold errorSpan
    dsimp only
    split
    · next hlt => exact .inr ⟨rfl, by omega⟩
    · exact .inl rfl

end ComponentMarkup
