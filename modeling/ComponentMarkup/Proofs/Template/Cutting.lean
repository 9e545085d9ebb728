import ComponentMarkup.Proofs.Element.Weaving
import ComponentMarkup.Proofs.Position.Boundaries
import ComponentMarkup.Proofs.Text.Splitting
import ComponentMarkup.Template.Dedent

/-!
# Cuts at the starts of lines

Dedenting cuts blanks out of a text, each time at the start of the text or right after a newline.
`Dedent.IsCut` says this of one cut. The cuts of a text are in order, and what they leave of a part of
the text is the text without the characters that a cut covers.
-/

namespace ComponentMarkup

open Text (byteLength eq_nil_of_byteLength_zero exists_append_of_byteLength_le)

namespace Dedent

variable {text front t back : List Char} {body : List (List Char)} {m o a e : Nat} {cut : Span}

theorem splitBlankLines_spec {text : List (List Char)} (h : text ≠ []) :
    text = (splitBlankLines text).1 ++ (splitBlankLines text).2 ∧ (splitBlankLines text).2 ≠ [] ∧
      ∀ line ∈ (splitBlankLines text).1, isBlankLine line = true := by
  fun_induction splitBlankLines text with
  | case1 => exact absurd rfl h
  | case2 line => simp
  | case3 line rest hrest hblank blank body heq ih =>
    obtain ⟨happ, hbody, hlines⟩ := ih hrest
    simp only [heq] at happ hbody hlines
    exact ⟨by rw [List.cons_append, ← happ], hbody, List.forall_mem_cons.mpr ⟨hblank, hlines⟩⟩
  | case4 line rest hrest hblank => simp

/-! ## Cuts -/

/-- A cut takes blanks away, right at the start of a line. -/
def IsCut (text : List Char) (cut : Span) : Prop :=
  ∃ front blanks back, text = front ++ blanks ++ back ∧ cut = .over (byteLength front) blanks ∧
    Blanks blanks ∧ (front = [] ∨ front.getLast? = some '\n')

/-- Cuts follow each other without overlapping. -/
def InOrder (cuts : List Span) : Prop :=
  cuts.Pairwise fun a b => a.stop ≤ b.start

theorem blanks_nil : Blanks [] := by
  intro c hc
  cases hc

theorem isBlank_of_indent {c : Char} (h : (c == ' ' || c == '\t') = true) :
    Text.isBlank c = true ∧ c.utf8Size = 1 := by
  simp only [Bool.or_eq_true, beq_iff_eq] at h
  rcases h with rfl | rfl <;> exact ⟨rfl, rfl⟩

/-- The indentation of a line is made of blanks of one byte. -/
theorem take_indentation {line : List Char} {n : Nat} (h : n ≤ indentation line) :
    Blanks (line.take n) ∧ byteLength (line.take n) = n := by
  induction line generalizing n with
  | nil =>
    have hzero : n = 0 := Nat.le_zero.mp h
    rw [hzero]
    exact ⟨blanks_nil, rfl⟩
  | cons c line ih =>
    cases n with
    | zero => exact ⟨blanks_nil, rfl⟩
    | succ n =>
      by_cases hc : (c == ' ' || c == '\t') = true
      · have hn : n ≤ indentation line := by
          simp only [indentation, List.takeWhile_cons, hc, if_true, List.length_cons] at h
          exact Nat.le_of_succ_le_succ h
        obtain ⟨hblanks, hlen⟩ := ih hn
        obtain ⟨hblank, hsize⟩ := isBlank_of_indent hc
        rw [List.take_succ_cons]
        refine ⟨List.forall_mem_cons.mpr ⟨hblank, hblanks⟩, ?_⟩
        rw [Text.byteLength_cons, hlen, hsize, Nat.add_comm]
      · simp only [indentation, List.takeWhile_cons, hc] at h
        exact absurd h (by simp)

theorem le_start_of_mem_lineCuts : ∀ cut ∈ lineCuts m o body, o ≤ cut.start := by
  induction body generalizing o with
  | nil => intro cut hcut; cases hcut
  | cons line rest ih =>
    intro cut hcut
    rw [lineCuts] at hcut
    split at hcut
    · have hstart := ih cut hcut
      omega
    · rcases List.mem_cons.mp hcut with rfl | hcut
      · exact Nat.le_refl o
      · have hstart := ih cut hcut
        omega

theorem indentation_le_byteLength (line : List Char) : indentation line ≤ byteLength line := by
  have hlen := (take_indentation (Nat.le_refl (indentation line))).2
  have hwhole : byteLength line =
      byteLength (line.take (indentation line)) + byteLength (line.drop (indentation line)) := by
    rw [← Text.byteLength_append, List.take_append_drop]
  omega

theorem inOrder_lineCuts : InOrder (lineCuts m o body) := by
  induction body generalizing o with
  | nil => exact .nil
  | cons line rest ih =>
    rw [lineCuts]
    split
    · exact ih
    · refine .cons ?_ ih
      intro cut hcut
      have hstart := le_start_of_mem_lineCuts cut hcut
      have hindent := indentation_le_byteLength line
      change o + min (indentation line) m ≤ cut.start
      omega

theorem isCut_of_mem_lineCuts (hfront : front = [] ∨ front.getLast? = some '\n') :
    ∀ cut ∈ lineCuts m (byteLength front) body, IsCut (front ++ Text.join ['\n'] body) cut := by
  induction body generalizing front with
  | nil => intro cut hcut; cases hcut
  | cons line rest ih =>
    have hhere : IsCut (front ++ Text.join ['\n'] (line :: rest))
        ⟨byteLength front, byteLength front + min (indentation line) m⟩ := by
      obtain ⟨hblanks, hlen⟩ := take_indentation (Nat.min_le_left (indentation line) m)
      obtain ⟨after, hafter⟩ : ∃ after, Text.join ['\n'] (line :: rest) = line ++ after := by
        cases rest with
        | nil => exact ⟨[], by rw [Text.join_singleton, List.append_nil]⟩
        | cons next more => exact ⟨_, by rw [Text.join_cons_cons, List.append_assoc]⟩
      refine ⟨front, line.take (min (indentation line) m),
        line.drop (min (indentation line) m) ++ after, ?_, by rw [Span.over, hlen], hblanks, hfront⟩
      rw [hafter, List.append_assoc, ← List.append_assoc (line.take _), List.take_append_drop]
    -- the lines that follow stand after this line and its newline
    have hlater : ∀ cut ∈ lineCuts m (byteLength front + byteLength line + 1) rest,
        IsCut (front ++ Text.join ['\n'] (line :: rest)) cut := by
      cases rest with
      | nil => intro cut hcut; cases hcut
      | cons next more =>
        intro cut hcut
        have hplace : byteLength (front ++ line ++ ['\n']) =
            byteLength front + byteLength line + 1 := by
          rw [Text.byteLength_append, Text.byteLength_append]
          rfl
        have hcut : IsCut (front ++ line ++ ['\n'] ++ Text.join ['\n'] (next :: more)) cut :=
          ih (.inr (by simp)) cut (hplace ▸ hcut)
        rw [Text.join_cons_cons]
        simpa using hcut
    intro cut hcut
    rw [lineCuts] at hcut
    split at hcut
    · exact hlater cut hcut
    · rcases List.mem_cons.mp hcut with rfl | hcut
      · exact hhere
      · exact hlater cut hcut

/-- The cuts of a text are in order and at the starts of lines. -/
theorem cuts_spec (text : List Char) :
    InOrder (cuts text) ∧ ∀ cut ∈ cuts text, IsCut text cut := by
  have hlines : lines text ≠ [] := List.ne_nil_of_length_eq_add_one (Text.length_split _ _ _)
  have htext : Text.join ['\n'] (lines text) = text := Text.join_split _ _ _
  obtain ⟨happ, hbody, hblank⟩ := splitBlankLines_spec hlines
  rcases hsplit : splitBlankLines (lines text) with ⟨blank, body⟩
  rw [hsplit] at happ hbody hblank
  -- the blank lines in front, which are cut as a whole
  let front := blank.flatMap fun line => line ++ ['\n']
  have hwhole : text = front ++ Text.join ['\n'] body := by
    rw [← htext, happ]
    exact Text.intercalate_append ['\n'] blank hbody
  have hcuts : cuts text = (if byteLength front = 0 then [] else [⟨0, byteLength front⟩]) ++
      lineCuts (margin body) (byteLength front) body := by
    rw [cuts, hsplit]
  have hfrontBlank : Blanks front := by
    intro c hc
    obtain ⟨line, hline, hc⟩ := List.mem_flatMap.mp hc
    rcases List.mem_append.mp hc with hc | hc
    · exact List.all_eq_true.mp (hblank line hline) c hc
    · rw [List.mem_singleton.mp hc]
      rfl
  have hfrontEnd : front = [] ∨ front.getLast? = some '\n' := by
    rcases List.eq_nil_or_concat blank with hnil | ⟨init, last, hlast⟩
    · exact .inl (by simp [front, hnil])
    · exact .inr (by simp [front, hlast])
  have hbodyCuts : ∀ cut ∈ lineCuts (margin body) (byteLength front) body, IsCut text cut := by
    rw [hwhole]
    exact isCut_of_mem_lineCuts hfrontEnd
  rw [hcuts]
  split
  · exact ⟨inOrder_lineCuts, hbodyCuts⟩
  · refine ⟨.cons le_start_of_mem_lineCuts inOrder_lineCuts,
      List.forall_mem_cons.mpr ⟨?_, hbodyCuts⟩⟩
    refine ⟨[], front, Text.join ['\n'] body, hwhole, ?_, hfrontBlank, .inl rfl⟩
    rw [Span.over, Text.byteLength_nil, Nat.zero_add]

/-! ## What cuts leave -/

/-- The characters of a text at an offset that no cut covers. -/
def uncut (cuts : List Span) (o : Nat) : List Char → List Char
  | [] => []
  | c :: rest =>
    if cuts.any (·.containsOffset o) then uncut cuts (o + c.utf8Size) rest
    else c :: uncut cuts (o + c.utf8Size) rest

/-- The items of a list that no cut covers, and all solid ones. Each item takes its size of the text, in
which the first one stands at an offset. -/
def remaining {α : Type} (size : α → Nat) (solid : α → Bool) (cuts : List Span) (o : Nat) :
    List α → List α
  | [] => []
  | x :: rest =>
    if !solid x && cuts.any (·.containsOffset o) then remaining size solid cuts (o + size x) rest
    else x :: remaining size solid cuts (o + size x) rest

theorem uncut_eq_remaining (cuts : List Span) (o : Nat) (t : List Char) :
    uncut cuts o t = remaining Char.utf8Size (fun _ => false) cuts o t := by
  induction t generalizing o with
  | nil => rfl
  | cons c t ih => rw [uncut, remaining, ih]; rfl

theorem sum_utf8Size (t : List Char) : (t.map Char.utf8Size).sum = byteLength t := by
  induction t with
  | nil => rfl
  | cons c t ih => rw [List.map_cons, List.sum_cons, ih, Text.byteLength_cons]

section

variable {α : Type} {size : α → Nat} {solid : α → Bool} {cuts : List Span} {xs : List α}

theorem remaining_append (cuts : List Span) (o : Nat) (xs ys : List α) :
    remaining size solid cuts o (xs ++ ys) =
      remaining size solid cuts o xs ++ remaining size solid cuts (o + (xs.map size).sum) ys := by
  induction xs generalizing o with
  | nil => rfl
  | cons x xs ih =>
    rw [List.cons_append, remaining, remaining, ih, List.map_cons, List.sum_cons, Nat.add_assoc]
    split <;> rfl

theorem remaining_nil (o : Nat) (xs : List α) : remaining size solid [] o xs = xs := by
  induction xs generalizing o with
  | nil => rfl
  | cons x xs ih => rw [remaining, ih, if_neg (by simp)]

variable (hsize : ∀ x, 0 < size x)

include hsize

/-- Only the offsets of the items matter. -/
theorem remaining_congr {cuts' : List Span} (h : ∀ i, o ≤ i → i < o + (xs.map size).sum →
      cuts.any (·.containsOffset i) = cuts'.any (·.containsOffset i)) :
    remaining size solid cuts o xs = remaining size solid cuts' o xs := by
  induction xs generalizing o with
  | nil => rfl
  | cons x xs ih =>
    have hpos := hsize x
    rw [List.map_cons, List.sum_cons] at h
    rw [remaining, remaining, h o (Nat.le_refl o) (by omega),
      ih fun i hle hlt => h i (by omega) (by omega)]

theorem remaining_of_free
    (h : ∀ i, o ≤ i → i < o + (xs.map size).sum → cuts.any (·.containsOffset i) = false) :
    remaining size solid cuts o xs = xs :=
  (remaining_congr hsize h).trans (remaining_nil o xs)

theorem remaining_of_apart (h : ∀ cut ∈ cuts, cut.stop ≤ o ∨ o + (xs.map size).sum ≤ cut.start) :
    remaining size solid cuts o xs = xs := by
  refine remaining_of_free hsize fun i hle hlt => List.any_eq_false.mpr fun cut hcut => ?_
  have hapart := h cut hcut
  rw [Span.containsOffset_iff]
  omega

/-- A cut that covers none of the offsets does not matter. -/
theorem remaining_cons_of_apart
    (h : ∀ i, o ≤ i → i < o + (xs.map size).sum → i < cut.start ∨ cut.stop ≤ i) :
    remaining size solid (cut :: cuts) o xs = remaining size solid cuts o xs := by
  refine remaining_congr hsize fun i hle hlt => ?_
  rw [List.any_cons, Span.containsOffset_eq_false_iff.mpr (h i hle hlt), Bool.false_or]

theorem remaining_of_covered (hsolid : ∀ x ∈ xs, solid x = false) (hcut : cut ∈ cuts)
    (hstart : cut.start ≤ o) (hstop : o + (xs.map size).sum ≤ cut.stop) :
    remaining size solid cuts o xs = [] := by
  induction xs generalizing o with
  | nil => rfl
  | cons x xs ih =>
    obtain ⟨hx, hxs⟩ := List.forall_mem_cons.mp hsolid
    have hpos := hsize x
    rw [List.map_cons, List.sum_cons] at hstop
    have hhere : cuts.any (·.containsOffset o) = true := by
      refine List.any_eq_true.mpr ⟨cut, hcut, ?_⟩
      rw [Span.containsOffset_iff]
      omega
    rw [remaining, hhere, hx]
    exact ih hxs (by omega) (by omega)

/-- A cut in the middle of items leaves those in front of it; later cuts leave what they leave of the
rest. -/
theorem remaining_of_split {ys zs : List α} (hlater : ∀ other ∈ cuts, cut.stop ≤ other.start)
    (hcut : cut.start ≤ cut.stop) (hxs : o + (xs.map size).sum = max o cut.start)
    (hys : o + (xs.map size).sum + (ys.map size).sum ≤ cut.stop)
    (hzs : (zs.map size).sum = 0 ∨ cut.stop ≤ o + (xs.map size).sum + (ys.map size).sum) :
    remaining size (fun _ => false) (cut :: cuts) o (xs ++ (ys ++ zs)) =
      xs ++ remaining size (fun _ => false) cuts (o + (xs.map size).sum + (ys.map size).sum) zs := by
  have hbefore : remaining size (fun _ => false) (cut :: cuts) o xs = xs := by
    refine remaining_of_free hsize fun i hle hlt => List.any_eq_false.mpr fun other hother => ?_
    rw [Span.containsOffset_iff]
    obtain rfl | hother := List.mem_cons.mp hother
    · omega
    · have hother := hlater other hother
      omega
  have hcovered : remaining size (fun _ => false) (cut :: cuts) (o + (xs.map size).sum) ys = [] :=
    remaining_of_covered hsize (fun _ _ => rfl) List.mem_cons_self (by omega) hys
  rw [remaining_append, hbefore, remaining_append, hcovered, List.nil_append,
    remaining_cons_of_apart hsize fun i _ _ => by omega]

end

theorem uncut_of_covered {cuts : List Span} (hcut : cut ∈ cuts) (hstart : cut.start ≤ o)
    (hstop : o + byteLength t ≤ cut.stop) : uncut cuts o t = [] := by
  rw [uncut_eq_remaining]
  exact remaining_of_covered Char.utf8Size_pos (fun _ _ => rfl) hcut hstart (by rwa [sum_utf8Size])

theorem keep_cons_of_apart {cuts : List Span} (h : cut.stop ≤ a ∨ e ≤ cut.start) :
    keep ⟨a, e⟩ (cut :: cuts) = keep ⟨a, e⟩ cuts := by
  rw [keep, if_pos (by simpa using h)]

theorem keep_cons_of_overlap {cuts : List Span} (hstart : a < cut.stop) (hstop : cut.start < e) :
    keep ⟨a, e⟩ (cut :: cuts) =
      (if a < cut.start then [⟨a, cut.start⟩] else []) ++ keep ⟨cut.stop, e⟩ cuts := by
  rw [keep, if_neg (by simp; omega), Nat.max_eq_right (Nat.le_of_lt hstart)]

theorem keep_of_le {cuts : List Span} (h : e ≤ a) : keep ⟨a, e⟩ cuts = [] := by
  induction cuts generalizing a with
  | nil =>
    rw [keep, if_neg]
    exact Nat.not_lt.mpr h
  | cons cut cuts ih =>
    by_cases hapart : cut.stop ≤ a ∨ e ≤ cut.start
    · rw [keep_cons_of_apart hapart, ih h]
    · rw [keep_cons_of_overlap (by omega) (by omega), if_neg (by omega), ih (by omega)]
      rfl

/-- A part of a text is split at a place of the text that lies in it. -/
theorem exists_split {front' back' : List Char} (h : front ++ t ++ back = front' ++ back')
    (hstart : byteLength front ≤ byteLength front')
    (hstop : byteLength front' ≤ byteLength (front ++ t)) :
    ∃ u v, t = u ++ v ∧ front' = front ++ u := by
  rw [List.append_assoc] at h
  obtain ⟨u, rfl, hrest⟩ := exists_append_of_byteLength_le h hstart
  rw [Text.byteLength_append, Text.byteLength_append] at hstop
  obtain ⟨v, hv, _⟩ := exists_append_of_byteLength_le hrest.symm (by omega)
  exact ⟨u, v, hv, rfl⟩

/-- A cut that meets a part of a text splits it: `u` stands before the cut, `w` is cut out and `x`
stands after it. -/
theorem exists_split_of_cut (htext : text = front ++ t ++ back) (hcut : IsCut text cut)
    (hstart : byteLength front < cut.stop) (hstop : cut.start < byteLength (front ++ t)) :
    ∃ u w x, t = u ++ (w ++ x) ∧ byteLength front + byteLength u = max (byteLength front) cut.start ∧
      byteLength front + byteLength u + byteLength w = min (byteLength (front ++ t)) cut.stop := by
  obtain ⟨before, blanks, after, hwhole, rfl, -, -⟩ := hcut
  simp only [Span.over] at hstart hstop ⊢
  have hplaces : front ++ t ++ back = before ++ (blanks ++ after) := by
    rw [← htext, hwhole, List.append_assoc]
  obtain ⟨u, v, rfl, hu⟩ : ∃ u v, t = u ++ v ∧
      byteLength front + byteLength u = max (byteLength front) (byteLength before) := by
    by_cases hle : byteLength before ≤ byteLength front
    · exact ⟨[], t, rfl, (Nat.max_eq_left hle).symm⟩
    · obtain ⟨u, v, hv, hbefore⟩ := exists_split hplaces (by omega) (by omega)
      rw [hbefore, Text.byteLength_append]
      exact ⟨u, v, hv, by omega⟩
  by_cases hle : byteLength (front ++ (u ++ v)) ≤ byteLength before + byteLength blanks
  · refine ⟨u, v, [], by rw [List.append_nil], hu, ?_⟩
    rw [Nat.min_eq_left hle, Text.byteLength_append, Text.byteLength_append, Nat.add_assoc]
  · have hplaces' : front ++ u ++ v ++ back = (before ++ blanks) ++ after := by
      rw [List.append_assoc before, ← hplaces]
      simp
    rw [← List.append_assoc] at hle
    obtain ⟨w, x, hx, hbefore⟩ := exists_split hplaces'
      (by rw [Text.byteLength_append, Text.byteLength_append before]; omega)
      (by rw [Text.byteLength_append before]; omega)
    refine ⟨u, w, x, by rw [hx], hu, ?_⟩
    have hlen := congrArg byteLength hbefore
    simp only [Text.byteLength_append] at hlen hle ⊢
    omega

theorem slice_between (front t₁ u t₂ : List Char) :
    (⟨byteLength (front ++ t₁) - byteLength front,
      byteLength (front ++ t₁) + byteLength u - byteLength front⟩ : Span).slice (t₁ ++ u ++ t₂) =
      u := by
  have hstart : byteLength (front ++ t₁) - byteLength front = byteLength t₁ := by
    rw [Text.byteLength_append]
    omega
  have hstop : byteLength (front ++ t₁) + byteLength u - byteLength front =
      byteLength t₁ + byteLength u := by
    rw [Text.byteLength_append]
    omega
  rw [hstart, hstop]
  exact Span.slice_over t₁ u t₂

/-- The cuts keep parts `p.2` of a text, each after a part `p.1` of it. If the text is spelled with items,
those of the kept parts are the items that remain. The text goes on after `t₁`, which was dealt with
before. -/
theorem exists_parts_of_keep {α : Type} {size : α → Nat} (spell : Nat → List Char → List α)
    (hsize : ∀ x, 0 < size x)
    (happend : ∀ s t u, spell s (t ++ u) = spell s t ++ spell (s + byteLength t) u)
    (hsum : ∀ s t, ((spell s t).map size).sum = byteLength t) {cuts : List Span} (horder : InOrder cuts)
    (hcuts : ∀ cut ∈ cuts, IsCut text cut) (t₁ t₂ : List Char)
    (htext : text = front ++ t₁ ++ t₂ ++ back) :
    ∃ parts : List (List Char × List Char), (∀ p ∈ parts, ∃ x, t₁ ++ t₂ = p.1 ++ p.2 ++ x) ∧
      keep ⟨byteLength (front ++ t₁), byteLength (front ++ t₁) + byteLength t₂⟩ cuts = parts.map (fun p =>
        ⟨byteLength (front ++ p.1), byteLength (front ++ p.1) + byteLength p.2⟩) ∧
      remaining size (fun _ => false) cuts (byteLength (front ++ t₁)) (spell (byteLength t₁) t₂) =
        parts.flatMap fun p => spell (byteLength p.1) p.2 := by
  have hempty : ∀ s, spell s [] = [] := fun s => by
    have htwo := congrArg List.length (happend s [] [])
    rw [List.append_nil, Text.byteLength_nil, Nat.add_zero, List.length_append] at htwo
    exact List.eq_nil_of_length_eq_zero (by omega)
  induction cuts generalizing t₁ t₂ with
  | nil =>
    rw [remaining_nil, keep]
    split
    · exact ⟨[(t₁, t₂)], by simp, rfl, (List.append_nil _).symm⟩
    · next hnone =>
      have hnone : ¬ byteLength (front ++ t₁) < byteLength (front ++ t₁) + byteLength t₂ := hnone
      rw [eq_nil_of_byteLength_zero (t := t₂) (by omega), hempty]
      exact ⟨[], by simp, rfl, rfl⟩
  | cons cut cuts ih =>
    obtain ⟨hlater, horder⟩ := List.pairwise_cons.mp horder
    obtain ⟨hcut, hrest⟩ := List.forall_mem_cons.mp hcuts
    have hle : cut.start ≤ cut.stop := by
      obtain ⟨_, _, _, _, rfl, _, _⟩ := hcut
      exact Nat.le_add_right _ _
    by_cases hapart : cut.stop ≤ byteLength (front ++ t₁) ∨
        byteLength (front ++ t₁) + byteLength t₂ ≤ cut.start
    · rw [keep_cons_of_apart hapart, remaining_cons_of_apart hsize fun i _ hlt => by
        rw [hsum] at hlt; omega]
      exact ih horder hrest t₁ t₂ htext
    · simp only [not_or, Nat.not_le] at hapart
      obtain ⟨u, w, x, rfl, hu, hw⟩ := exists_split_of_cut htext hcut hapart.1
        (by rw [Text.byteLength_append]; exact hapart.2)
      rw [Text.byteLength_append (front ++ t₁)] at hw
      simp only [Text.byteLength_append u, Text.byteLength_append w] at hapart hw ⊢
      -- what is left after the cut goes on in the same way
      obtain ⟨parts, hparts, hkeep, hleft⟩ := ih horder hrest (t₁ ++ (u ++ w)) x (by rw [htext]; simp)
      have hplace (before : List Char) :
          byteLength (before ++ (u ++ w)) = byteLength before + byteLength u + byteLength w := by
        simp only [Text.byteLength_append]
        omega
      rw [← List.append_assoc front, hplace] at hkeep hleft
      have hjoin : t₁ ++ (u ++ w) ++ x = t₁ ++ (u ++ (w ++ x)) := by simp
      have hsame : keep ⟨cut.stop, byteLength (front ++ t₁) + (byteLength u + (byteLength w + byteLength x))⟩
          cuts = parts.map (fun p =>
            ⟨byteLength (front ++ p.1), byteLength (front ++ p.1) + byteLength p.2⟩) := by
        rw [← hkeep]
        by_cases hend : byteLength (front ++ t₁) + byteLength u + byteLength w = cut.stop
        · rw [hend, show byteLength (front ++ t₁) + (byteLength u + (byteLength w + byteLength x)) =
            cut.stop + byteLength x by omega]
        · rw [keep_of_le (by omega), keep_of_le (by omega)]
      have hsplit : remaining size (fun _ => false) (cut :: cuts) (byteLength (front ++ t₁))
          (spell (byteLength t₁) (u ++ (w ++ x))) =
            spell (byteLength t₁) u ++ parts.flatMap fun p => spell (byteLength p.1) p.2 := by
        rw [← hleft, hplace, happend, happend _ w, remaining_of_split hsize hlater hle]
        all_goals simp only [hsum]
        all_goals omega
      rw [hjoin] at hparts
      rw [keep_cons_of_overlap hapart.1 hapart.2, hsame, hsplit]
      split
      · next hfirst =>
        refine ⟨(t₁, u) :: parts, List.forall_mem_cons.mpr ⟨⟨w ++ x, by simp⟩, hparts⟩, ?_, rfl⟩
        rw [List.map_cons, show byteLength (front ++ t₁) + byteLength u = cut.start by omega]
        rfl
      · have hnone : spell (byteLength t₁) u = [] := by
          rw [eq_nil_of_byteLength_zero (t := u) (by omega), hempty]
        exact ⟨parts, hparts, rfl, by rw [hnone, List.nil_append]⟩

end Dedent

end ComponentMarkup
