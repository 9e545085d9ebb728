import ComponentMarkup.Proofs.Element.Gaps
import Mathlib

/-!
# Blanks put into a text

A text that is recognized is still recognized after blanks are put into it, as long as they do not part
what belongs together: a name, the two characters of `</` or of `/>`, the quotes of a string literal, or
a backslash and what it guards (`Parted`). What is no nested element and no key and value does not become
one, and the places which are reached correspond.

The blanks may end up in a tag, in a text or in a string literal. If they are put beside a part or into one
of its gaps (`Sense.Spares`), the part also keeps its meaning.
-/

namespace ComponentMarkup

open Text (byteLength isBlank)

variable {b : List Char} {c : Char}

/-! ## Texts that blanks cannot part -/

/-- A text that blanks cannot part. -/
structure Solid (token : List Char) : Prop where
  noBlanks : ∀ c ∈ token, isBlank c = false
  whole : ∀ {y z p q}, token = y ++ z → y.getLast? = some p → z.head? = some q → ¬ Parted p q

theorem solid_one (hc : isBlank c = false) : Solid [c] where
  noBlanks := by simpa using hc
  whole := by
    intro y z p q htoken hp hq
    have hlen := congrArg List.length htoken
    have hy := List.length_pos_of_mem (List.mem_of_getLast? hp)
    have hz := List.length_pos_of_mem (List.mem_of_mem_head? hq)
    simp only [List.length_singleton, List.length_append] at hlen
    omega

theorem solid_two {d : Char} (hc : isBlank c = false) (hd : isBlank d = false) (h : ¬ Parted c d) :
    Solid [c, d] where
  noBlanks := by simp [hc, hd]
  whole := by
    intro y z p q htoken hp hq
    match y, z with
    | [], _ => cases hp
    | [_], [_] =>
      cases htoken
      cases hp
      cases hq
      exact h
    | _ :: _, [] => cases hq
    | _ :: _ :: _, _ :: _ | [_], _ :: _ :: _ =>
      have hlen := congrArg List.length htoken
      simp only [List.length_append, List.length_cons, List.length_nil] at hlen
      omega

theorem solid_closing : Solid ['<', '/'] :=
  solid_two (by decide) (by decide) fun h => h.closing rfl rfl

theorem solid_ending : Solid ['/', '>'] :=
  solid_two (by decide) (by decide) fun h => h.ending rfl rfl

theorem solid_name {name : List Char} (h : IsMarkupName name) : Solid name where
  noBlanks := fun c hc => isBlank_of_isNameChar (h.chars c hc)
  whole := by
    intro y z p q hname hp hq hparted
    have hleft := h.chars p (by simp [hname, List.mem_of_getLast? hp])
    have hright := h.chars q (by simp [hname, List.mem_of_mem_head? hq])
    rw [hparted.names hleft] at hright
    cases hright

theorem solid_quotes {quotes : List Char} (h : quotes ∈ stringQuotes) : Solid quotes := by
  obtain ⟨quote, hquote, hquotes⟩ := exists_of_stringQuotes h
  have hall : ∀ c ∈ quotes, c = quote := by
    rcases hquotes with rfl | rfl <;> simp
  refine ⟨fun c hc => ?_, fun {y z p q} heq hp hq hparted => ?_⟩
  · rw [hall c hc]
    exact isBlank_of_stringQuotes hquote
  · have hleft := hall p (by simp [heq, List.mem_of_getLast? hp])
    have hright := hall q (by simp [heq, List.mem_of_mem_head? hq])
    exact hparted.quotes (hleft ▸ hquote) (hright.trans hleft.symm)

/-! ## Corresponding places -/

/-- What is left of a text, without and with blanks in front of `b`: the blanks are still ahead, or
they are passed already. -/
inductive Widens (w b : List Char) : List Char → List Char → Prop where
  | same {r} : byteLength r ≤ byteLength b → Widens w b r r
  | ahead {x} : x ≠ [] → PartedTexts x b → Widens w b (x ++ b) (x ++ (w ++ b))

/-- As `Widens`, but the blanks may also come next. -/
inductive Meets (w b : List Char) : List Char → List Char → Prop where
  | widens {r r'} : Widens w b r r' → Meets w b r r'
  | here : Meets w b b (w ++ b)

section Places

variable {w b r r' t s : List Char} {p : Char → Bool}

theorem Widens.head? (h : Widens w b r r') : r'.head? = r.head? := by
  cases h with
  | same _ => rfl
  | ahead hx _ =>
    obtain ⟨c, x, rfl⟩ := List.exists_cons_of_ne_nil hx
    rfl

theorem Widens.halts (h : Widens w b r r') (hr : Halts p r) : Halts p r' := by
  intro c hc
  rw [h.head?] at hc
  exact hr c hc

/-- A property that no blank has is not had by what comes next either. -/
theorem Meets.halts (h : Meets w b r r') (hw : Blanks w) (hp : ∀ c, isBlank c = true → p c = false)
    (hr : Halts p r) : Halts p r' := by
  cases h with
  | widens h => exact h.halts hr
  | here =>
    refine Halts.append ?_ hr
    intro c hc
    exact hp c (hw c (List.mem_of_mem_head? hc))

theorem Meets.widens_or_here (h : Meets w b r r') :
    Widens w b r r' ∨ ∃ k, w.head? = some k ∧ r = b ∧ r' = w ++ b := by
  cases h with
  | widens h => exact .inl h
  | here =>
    cases w with
    | nil => exact .inl (.same (Nat.le_refl _))
    | cons k w => exact .inr ⟨k, rfl, rfl, rfl⟩

theorem Widens.eq_of_le (h : Widens w b r r') (hle : byteLength r ≤ byteLength b) : r' = r := by
  cases h with
  | same _ => rfl
  | ahead hx _ =>
    have hpos := byteLength_pos hx
    rw [Text.byteLength_append] at hle
    omega

theorem Meets.eq_of_lt (h : Meets w b r r') (hlt : byteLength r < byteLength b) : r' = r := by
  cases h with
  | widens h => exact h.eq_of_le (Nat.le_of_lt hlt)
  | here => exact absurd hlt (Nat.lt_irrefl _)

theorem Meets.exists_of_lt (h : Meets w b r r') (hlt : byteLength b < byteLength r) :
    ∃ x, r = x ++ b ∧ r' = x ++ (w ++ b) := by
  cases h with
  | widens h =>
    cases h with
    | same hle => exact absurd hlt (Nat.not_lt.mpr hle)
    | @ahead x _ _ => exact ⟨x, rfl, rfl⟩
  | here => exact absurd hlt (Nat.lt_irrefl _)

/-- A part that the blanks are not put into has the same text. -/
theorem Widens.extent {t' s' : List Char} (h : Widens w b (t ++ s) (t' ++ s')) (hs : Meets w b s s')
    (ht : t ≠ []) (hplace : byteLength b < byteLength s ∨ byteLength (t ++ s) ≤ byteLength b) : t' = t := by
  have hpos := byteLength_pos ht
  have hlen := Text.byteLength_append t s
  obtain hlt | hle := hplace
  · obtain ⟨x, rfl, rfl⟩ := hs.exists_of_lt hlt
    obtain ⟨y, hy, hy'⟩ := (Meets.widens h).exists_of_lt (by omega)
    obtain rfl : t ++ x = y := List.append_cancel_right (by simpa using hy)
    rw [List.append_assoc] at hy'
    exact List.append_cancel_right hy'
  · obtain rfl := hs.eq_of_lt (by omega)
    exact List.append_cancel_right (h.eq_of_le hle)

theorem Meets.allBlanks (h : Meets w b r r') (hw : Blanks w) (hr : Blanks r) : Blanks r' := by
  have hall : ∀ {x}, Blanks (x ++ b) → Blanks (x ++ (w ++ b)) := by
    intro x hx c hc
    simp only [List.mem_append] at hc
    obtain hc | hc | hc := hc
    · exact hx c (List.mem_append_left b hc)
    · exact hw c hc
    · exact hx c (List.mem_append_right x hc)
  cases h with
  | widens h =>
    cases h with
    | same _ => exact hr
    | ahead _ _ => exact hall hr
  | here => exact hall (x := []) hr

/-- Passing over all characters with a property that blanks have passes over the blanks as well. -/
theorem Meets.dropWhile (h : Meets w b r r') (hw : Blanks w)
    (hp : ∀ c, isBlank c = true → p c = true) : Widens w b (r.dropWhile p) (r'.dropWhile p) := by
  have hall : ∀ c ∈ w, p c = true := fun c hc => hp c (hw c hc)
  have hdrop : (w ++ b).dropWhile p = b.dropWhile p := List.dropWhile_append_of_pos hall
  have hle : ∀ r : List Char, byteLength (r.dropWhile p) ≤ byteLength r := fun r => by
    nth_rewrite 2 [← List.takeWhile_append_dropWhile (p := p) (l := r)]
    rw [Text.byteLength_append]
    exact Nat.le_add_left _ _
  cases h with
  | here =>
    rw [hdrop]
    exact .same (hle b)
  | widens h =>
    cases h with
    | same hr => exact .same (Nat.le_trans (hle _) hr)
    | @ahead x hx hparted =>
      rw [List.dropWhile_append, List.dropWhile_append, hdrop]
      by_cases hdone : (x.dropWhile p).isEmpty = true
      · rw [if_pos hdone, if_pos hdone]
        exact .same (hle b)
      · rw [if_neg hdone, if_neg hdone]
        have hne : x.dropWhile p ≠ [] := by simpa using hdone
        refine .ahead hne (PartedTexts.of_append (y := x.takeWhile p) ?_)
        rw [List.takeWhile_append_dropWhile]
        exact hparted

/-- A token that blanks cannot part is still there, and the blanks may come right after it. -/
theorem Widens.token (h : Widens w b r r') (hr : r = t ++ s) (hsolid : Solid t) :
    ∃ s', r' = t ++ s' ∧ Meets w b s s' := by
  cases h with
  | same hle =>
    rw [hr, Text.byteLength_append] at hle
    exact ⟨s, hr, .widens (.same (by omega))⟩
  | @ahead x hx hparted =>
    obtain ⟨front, htoken, hb⟩ | ⟨back, hx', hs⟩ := List.append_eq_append_iff.mp hr
    · cases front with
      | nil =>
        rw [List.append_nil] at htoken
        subst htoken hb
        exact ⟨_, rfl, .here⟩
      | cons q front =>
        obtain ⟨p, hp⟩ := Option.isSome_iff_exists.mp (List.getLast?_isSome.mpr hx)
        exact absurd (hparted p q hp (by rw [hb]; rfl)) (hsolid.whole htoken hp rfl)
    · subst hx' hs
      refine ⟨back ++ (w ++ b), by simp, ?_⟩
      by_cases hback : back = []
      · subst hback
        exact .here
      · exact .widens (.ahead hback hparted.of_append)

/-- A token that is there with the blanks is there without them. -/
theorem Widens.of_prefix (h : Widens w b r r') (hw : Blanks w)
    (hblanks : ∀ c ∈ t, isBlank c = false) (htoken : t <+: r') : t <+: r := by
  cases h with
  | same _ => exact htoken
  | @ahead x hx _ =>
    obtain ⟨s, hs⟩ := htoken
    obtain ⟨front, htoken, hb⟩ | ⟨back, hx', -⟩ := List.append_eq_append_iff.mp hs.symm
    · cases front with
      | nil =>
        rw [List.append_nil] at htoken
        rw [htoken]
        exact List.prefix_append x b
      | cons q front =>
        -- the token would go on with a blank
        cases w with
        | nil => exact ⟨s, by simpa using hs⟩
        | cons k w =>
          obtain rfl : k = q := (List.cons.inj hb).1
          have hblank := hblanks k (by simp [htoken])
          rw [hw k List.mem_cons_self] at hblank
          cases hblank
    · rw [hx', List.append_assoc]
      exact List.prefix_append t _

end Places

/-! ## Names and literals -/

section Leaves

variable {w b r : List Char} {quotes body t s : List Char}

theorem StringBody.blanks (hquotes : quotes ∈ stringQuotes) (hw : Blanks w)
    (h : StringBody quotes body) : StringBody quotes (w ++ body) := by
  induction w with
  | nil => exact h
  | cons k w ih =>
    have hk := hw k List.mem_cons_self
    have hnot : [k] ∉ stringQuotes := by
      intro hquote
      rw [isBlank_of_stringQuotes hquote] at hk
      cases hk
    refine .char ?_ (not_prefix_of_stringQuotes hquotes hnot)
      (ih fun c hc => hw c (List.mem_cons_of_mem k hc))
    rintro rfl
    exact absurd hk (by decide)

theorem StringBody.widen {y z : List Char} (hquotes : quotes ∈ stringQuotes) (hw : Blanks w)
    (h : StringBody quotes body) (hbody : body = y ++ z) (hparted : PartedTexts y (z ++ quotes)) :
    StringBody quotes (y ++ (w ++ z)) := by
  induction h generalizing y with
  | nil =>
    obtain ⟨rfl, rfl⟩ := List.nil_eq_append_iff.mp hbody
    simpa using StringBody.blanks hquotes hw .nil
  | @guarded d body hrest ih =>
    match y with
    | [] =>
      rw [List.nil_append] at hbody ⊢
      rw [← hbody]
      exact StringBody.blanks hquotes hw (.guarded hrest)
    | [p] =>
      -- the blanks part the backslash from what it guards
      obtain ⟨rfl, rfl⟩ := List.cons.inj hbody
      cases w with
      | nil => exact .guarded hrest
      | cons k w =>
        obtain ⟨hquote, hslash⟩ := (hparted _ d rfl rfl).guards rfl
        refine .guarded (StringBody.blanks hquotes (fun c hc => hw c (List.mem_cons_of_mem k hc)) ?_)
        exact .char hslash (not_prefix_of_stringQuotes hquotes hquote) hrest
    | p :: d' :: y =>
      obtain ⟨rfl, hguarded⟩ := List.cons.inj hbody
      obtain ⟨rfl, hsplit⟩ := List.cons.inj hguarded
      refine .guarded (ih hsplit ?_)
      intro p q hp hq
      refine hparted p q ?_ hq
      rw [List.getLast?_cons_cons, List.getLast?_cons, hp]
      rfl
  | @char d body hslash hfree hrest ih =>
    cases y with
    | nil =>
      rw [List.nil_append] at hbody ⊢
      rw [← hbody]
      exact StringBody.blanks hquotes hw (.char hslash hfree hrest)
    | cons d' y =>
      obtain ⟨rfl, hsplit⟩ := List.cons.inj hbody
      refine .char hslash ?_ (ih hsplit ?_)
      · intro hpre
        refine hfree ?_
        have hwidens : Widens w (z ++ quotes) ((d :: y) ++ (z ++ quotes))
            ((d :: y) ++ (w ++ (z ++ quotes))) := .ahead (List.cons_ne_nil d y) hparted
        have hback := hwidens.of_prefix hw (solid_quotes hquotes).noBlanks (by simpa using hpre)
        simpa [hsplit] using hback
      · intro p q hp hq
        refine hparted p q ?_ hq
        rw [List.getLast?_cons, hp]
        rfl

theorem Meets.endsBefore {s' : List Char} (h : Meets w b s s') (hw : Blanks w)
    (hends : EndsBefore t s) : EndsBefore t s' := by
  intro quote hquote ht hhead
  have hhalts : Halts (· == quote) s' := by
    refine h.halts hw (fun c hc => ?_) ?_
    · rw [beq_eq_false_iff_ne]
      rintro rfl
      rw [isBlank_of_stringQuotes hquote] at hc
      cases hc
    · intro c hc
      rw [beq_eq_false_iff_ne]
      rintro rfl
      exact hends c hquote ht hc
  simpa using hhalts quote hhead

/-- A literal with something between its quotes ends before anything. -/
theorem endsBefore_of_body (hquotes : quotes ∈ stringQuotes) (hbody : body ≠ []) (s : List Char) :
    EndsBefore (quotes ++ body ++ quotes) s := by
  intro quote _ htwo
  have hlen := congrArg List.length htwo
  have hpos := List.length_pos_iff.mpr hbody
  obtain ⟨q, -, rfl | rfl⟩ := exists_of_stringQuotes hquotes <;>
  · simp only [List.length_append, List.length_cons, List.length_nil] at hlen
    omega

theorem Widens.string {r' : List Char} (h : Widens w b r r') (hr : r = t ++ s) (hw : Blanks w)
    (ht : IsStringLiteral t) (hends : EndsBefore t s) :
    ∃ t' s', IsStringLiteral t' ∧ EndsBefore t' s' ∧ r' = t' ++ s' ∧ Meets w b s s' := by
  obtain ⟨quotes, hquotes, body, hbody, rfl⟩ := ht
  have hsolid := solid_quotes hquotes
  -- the literal with other text between its quotes
  have hinside : ∀ {body' : List Char}, byteLength (quotes ++ s) ≤ byteLength b →
      StringBody quotes body' → (body' = [] → body = []) → ∃ t' s', IsStringLiteral t' ∧ EndsBefore t' s' ∧
        quotes ++ (body' ++ (quotes ++ s)) = t' ++ s' ∧ Meets w b s s' := by
    intro body' hle hbody' hempty
    rw [Text.byteLength_append] at hle
    refine ⟨quotes ++ body' ++ quotes, s, ⟨quotes, hquotes, body', hbody', rfl⟩, ?_, by simp,
      .widens (.same (by omega))⟩
    by_cases hnil : body' = []
    · rw [hnil, ← hempty hnil]
      exact hends
    · exact endsBefore_of_body hquotes hnil s
  obtain ⟨r₁, rfl, hmeets⟩ := h.token (s := body ++ (quotes ++ s)) (by simp [hr]) hsolid
  generalize hrest : body ++ (quotes ++ s) = rest at hmeets
  cases hmeets with
  | here =>
    have hassoc : w ++ b = (w ++ body) ++ (quotes ++ s) := by simp [← hrest]
    rw [hassoc]
    exact hinside (by simp [← hrest]) (hbody.blanks hquotes hw) fun hnil => (List.append_eq_nil_iff.mp hnil).2
  | widens h =>
    cases h with
    | same hle =>
      rw [← hrest, Text.byteLength_append] at hle
      rw [← hrest]
      exact hinside (by omega) hbody id
    | @ahead x hx hparted =>
      have hmiddle : ∀ z, body = x ++ z → b = z ++ (quotes ++ s) →
          ∃ t' s', IsStringLiteral t' ∧ EndsBefore t' s' ∧ quotes ++ (x ++ (w ++ b)) = t' ++ s' ∧
            Meets w b s s' := by
        intro z hsplit hb
        have hassoc : x ++ (w ++ b) = (x ++ (w ++ z)) ++ (quotes ++ s) := by simp [hb]
        rw [hassoc]
        refine hinside (by simp [hb]) (hbody.widen hquotes hw hsplit ?_) fun hnil => ?_
        · intro p q hp hq
          refine hparted p q hp ?_
          rw [hb, ← List.append_assoc, List.head?_append, hq]
          rfl
        · exact absurd (List.append_eq_nil_iff.mp hnil).1 hx
      obtain ⟨back, rfl, hb⟩ | ⟨z, hsplit, hb⟩ := List.append_eq_append_iff.mp hrest
      · by_cases hback : back = []
        · subst hback
          exact hmiddle [] (by simp) (by simpa using hb.symm)
        · have hwidens : Widens w b (back ++ b) (back ++ (w ++ b)) :=
            .ahead hback hparted.of_append
          obtain ⟨s', hs', hmeets⟩ := hwidens.token hb.symm hsolid
          refine ⟨quotes ++ body ++ quotes, s', ⟨quotes, hquotes, body, hbody, rfl⟩,
            hmeets.endsBefore hw hends, ?_, hmeets⟩
          simp [hs']
      · exact hmiddle z hsplit hb

end Leaves

/-! ## Parts -/

theorem isMark_of_isBlank {x : Char} (hx : isBlank x = true) : Reader.isMark x = false := by
  rw [← Bool.not_eq_true]
  intro hmark
  simp only [Reader.isMark, Reader.isCloser, Bool.or_eq_true, beq_iff_eq] at hmark
  rcases hmark with ((((((rfl | rfl) | rfl) | rfl) | rfl) | rfl) | rfl) | rfl
  all_goals exact absurd hx (by decide)

theorem isContentMark_of_isBlank {x : Char} (hx : isBlank x = true) : Reader.isContentMark x = false := by
  rw [← Bool.not_eq_true]
  intro hmark
  simp only [Reader.isContentMark, Bool.or_eq_true, beq_iff_eq] at hmark
  rcases hmark with (rfl | rfl) | rfl
  all_goals exact absurd hx (by decide)

theorem isPlainChar_of_isBlank {x : Char} (hx : isBlank x = true) (stopAtColon : Bool) :
    isPlainChar stopAtColon x = true := by
  have hcolon : x ≠ ':' := by
    rintro rfl
    exact absurd hx (by decide)
  simp [isPlainChar, isMark_of_isBlank hx, hcolon]

section Parts

variable {w b r r' t s : List Char} {p : Char → Bool} {v rest : List Char}
  {Q : List Char → List Char → Prop} {stopAtColon : Bool} {node : Node} {o : Nat}

/-- A longest run of characters, which may take up the blanks. -/
theorem Meets.run (h : Meets w b (t ++ s) r') (hw : Blanks w)
    (hp : ∀ c, isBlank c = true → p c = true) (ht : ∀ c ∈ t, p c = true) (hs : Halts p s) :
    ∃ t' s', r' = t' ++ s' ∧ (∀ c ∈ t', p c = true) ∧ Halts p s' ∧ Widens w b s s' := by
  refine ⟨r'.takeWhile p, r'.dropWhile p, List.takeWhile_append_dropWhile.symm,
    fun _ => mem_takeWhile, halts_dropWhile p r', ?_⟩
  have hdrop := h.dropWhile hw hp
  rw [dropWhile_append_of_halts ht hs] at hdrop
  exact hdrop

/-- As `Meets.run`, if the run is not empty and the blanks do not come first. -/
theorem Widens.run (h : Widens w b (t ++ s) r') (hw : Blanks w)
    (hp : ∀ c, isBlank c = true → p c = true) (hne : t ≠ []) (ht : ∀ c ∈ t, p c = true)
    (hs : Halts p s) :
    ∃ t' s', r' = t' ++ s' ∧ t' ≠ [] ∧ (∀ c ∈ t', p c = true) ∧ Halts p s' ∧ Widens w b s s' := by
  obtain ⟨t', s', rfl, ht', hs', hwide⟩ := (Meets.widens h).run hw hp ht hs
  refine ⟨t', s', rfl, ?_, ht', hs', hwide⟩
  rintro rfl
  obtain ⟨x, t, rfl⟩ := List.exists_cons_of_ne_nil hne
  have hx := hs' x h.head?
  rw [ht x List.mem_cons_self] at hx
  cases hx

theorem Meets.blanks (h : Meets w b (v ++ s) r') (hw : Blanks w) (hv : Blanks v)
    (hs : Halts isBlank s) :
    ∃ v' s', r' = v' ++ s' ∧ Blanks v' ∧ Halts isBlank s' ∧ Widens w b s s' :=
  h.run hw (fun _ hc => hc) hv hs

theorem Meets.token {v token : List Char} (h : Meets w b (v ++ token ++ s) r') (hw : Blanks w)
    (hv : Blanks v) (hne : token ≠ []) (hsolid : Solid token) :
    ∃ v' s', r' = v' ++ token ++ s' ∧ Blanks v' ∧ Meets w b s s' := by
  rw [List.append_assoc] at h
  have hhalts : Halts isBlank (token ++ s) := by
    obtain ⟨x, token, rfl⟩ := List.exists_cons_of_ne_nil hne
    exact halts_cons.mpr (hsolid.noBlanks x List.mem_cons_self)
  obtain ⟨v', r₁, rfl, hv', -, hwide⟩ := h.blanks hw hv hhalts
  obtain ⟨s', rfl, hmeets⟩ := hwide.token rfl hsolid
  exact ⟨v', s', (List.append_assoc ..).symm, hv', hmeets⟩

/-- The front of a tag: a token, blanks and a name. -/
theorem Widens.tag {m name : List Char} (h : Widens w b (m ++ v ++ name ++ s) r') (hw : Blanks w)
    (hsolid : Solid m) (hv : Blanks v) (hname : IsMarkupName name)
    (hs : Halts Cursor.isNameChar s) :
    ∃ v' s', r' = m ++ v' ++ name ++ s' ∧ Blanks v' ∧ Halts Cursor.isNameChar s' ∧
      Meets w b s s' := by
  obtain ⟨r₁, rfl, hmeets⟩ := h.token (s := v ++ (name ++ s)) (by simp) hsolid
  obtain ⟨v', r₂, rfl, hv', -, hwide⟩ := hmeets.blanks hw hv hname.halts_isBlank
  obtain ⟨s', rfl, hmeets'⟩ := hwide.token rfl (solid_name hname)
  refine ⟨v', s', by simp, hv', hmeets'.halts hw (fun c hc => ?_) hs, hmeets'⟩
  rw [← Bool.not_eq_true]
  intro hchar
  rw [isBlank_of_isNameChar hchar] at hc
  cases hc

theorem Widens.paren (h : Widens w b ('(' :: v ++ s) r') (hw : Blanks w) (hv : Blanks v)
    (hs : Halts isBlank s) : ∃ v' s', r' = '(' :: v' ++ s' ∧ Blanks v' ∧ Widens w b s s' := by
  obtain ⟨r₁, rfl, hmeets⟩ := h.token (t := ['(']) (s := v ++ s) (by simp) (solid_one (by decide))
  obtain ⟨v', s', rfl, hv', -, hwide⟩ := hmeets.blanks hw hv hs
  exact ⟨v', s', rfl, hv', hwide⟩

theorem Widens.not_prefix {x : Char} (h : Widens w b s r') (hw : Blanks w) (hx : isBlank x = false)
    (hnot : ¬ [x] <+: s) : ¬ [x] <+: r' :=
  fun hpre => hnot (h.of_prefix hw (solid_one hx).noBlanks hpre)

/-- A part of a kind, which has a property, is recognized in a text at every offset, and what is left
corresponds. -/
def Sees {σ τ : Type} (sense : σ → τ → Sense) (Q : List Char → List Char → Prop)
    (K : τ → List Char → Prop) (rest r' : List Char) : Prop :=
  ∀ o, ∃ a m t' rest', r' = t' ++ rest' ∧ Q rest rest' ∧ K m rest' ∧ Recognizes (sense a m) o t' rest'

/-- A text in front of items. -/
theorem Sees.text {K K'} (h : Sees .items Q K rest r) (hK : ∀ m s, K' m s) (hne : t ≠ [])
    (ht : ∀ c ∈ t, (!Reader.isContentMark c) = true)
    (hr : Halts (fun c => !Reader.isContentMark c) r) : Sees .items Q K' rest (t ++ r) := by
  intro o
  obtain ⟨nodes, items, u, r', rfl, hQ, -, hitems⟩ := h (o + byteLength t)
  exact ⟨_, _, t ++ u, r', by simp, hQ, hK _ _, .items (.text hne ht hr) hitems⟩

theorem Sees.plain {K K'} (h : Sees (.pieces stopAtColon) Q K rest r) (hK : ∀ m s, K' m s) (hne : t ≠ [])
    (ht : ∀ c ∈ t, isPlainChar stopAtColon c = true) (hr : Halts (isPlainChar stopAtColon) r) :
    Sees (.pieces stopAtColon) Q K' rest (t ++ r) := by
  intro o
  obtain ⟨nodes, cells, u, r', rfl, hQ, -, hpieces⟩ := h (o + byteLength t)
  exact ⟨_, _, t ++ u, r', by simp, hQ, hK _ _, .pieces (.plain hne ht hr) hpieces⟩

/-- An item is a text, or it begins with a mark. -/
theorem Recognizes.item_run {item : ContentItem} (h : Recognizes (.item node item) o t rest) :
    Halts (fun c => !Reader.isContentMark c) (t ++ rest) ∨
      (∀ c ∈ t, (!Reader.isContentMark c) = true) ∧
        Halts (fun c => !Reader.isContentMark c) rest := by
  cases h with
  | elementItem h =>
    obtain ⟨w, name, more, rfl, -, -⟩ := h.element_start
    exact .inl (halts_cons.mpr (by decide))
  | braceItem _ => exact .inl (halts_cons.mpr (by decide))
  | bracketItem _ => exact .inl (halts_cons.mpr (by decide))
  | text _ ht hhalts => exact .inr ⟨ht, hhalts⟩

/-- A piece is plain text, or it begins with a mark. -/
theorem Recognizes.piece_run {cells : List SourceCell}
    (h : Recognizes (.piece stopAtColon node cells) o t rest) :
    Halts (isPlainChar stopAtColon) (t ++ rest) ∨
      (∀ c ∈ t, isPlainChar stopAtColon c = true) ∧ Halts (isPlainChar stopAtColon) rest := by
  cases h with
  | string ht _ =>
    obtain ⟨quotes, hquotes, body, -, rfl⟩ := ht
    obtain ⟨q, hq, hquotes⟩ := exists_of_stringQuotes hquotes
    have hmark : isPlainChar stopAtColon q = false := by
      rcases eq_of_stringQuotes hq with rfl | rfl <;> rfl
    rcases hquotes with rfl | rfl <;> exact .inl (halts_cons.mpr hmark)
  | plain _ ht hhalts => exact .inr ⟨ht, hhalts⟩
  | group hgroup _ _ =>
    have hall : ∀ group ∈ groups, Reader.isMark group.2.1 = true := by decide
    exact .inl (halts_cons.mpr (by simp [isPlainChar, hall _ hgroup]))
  | nested _ _ _ htext =>
    rw [htext]
    exact .inl (halts_cons.mpr rfl)

/-- Blanks with `n` bytes behind them are put beside a part, or into one of its gaps. -/
def Sense.Spares (n o : Nat) (t rest : List Char) : Sense → Prop
  | .element node _ => n ≤ byteLength rest ∨ byteLength (t ++ rest) ≤ n ∨
      ∃ gap ∈ node.blankGaps, gap.Touches (o + byteLength (t ++ rest) - n)
  | .attributes nodes _ => n ≤ byteLength rest ∨ byteLength (t ++ rest) < n ∨
      ∃ stop, ∃ gap ∈ Node.blankGapsBetween o stop nodes, gap.Touches (o + byteLength (t ++ rest) - n)
  | .value _ _ => n ≤ byteLength rest ∨ byteLength (t ++ rest) ≤ n
  | .items nodes _ => n < byteLength rest ∨ byteLength (t ++ rest) ≤ n ∨
      ∃ gap ∈ Node.blankGapsOfAll nodes, gap.Touches (o + byteLength (t ++ rest) - n)
  | .item node _ => n < byteLength rest ∨ byteLength (t ++ rest) ≤ n ∨
      ∃ gap ∈ node.blankGaps, gap.Touches (o + byteLength (t ++ rest) - n)
  | .pieces _ _ _ => n < byteLength rest ∨ byteLength (t ++ rest) < n
  | .piece _ _ _ => n < byteLength rest ∨ byteLength (t ++ rest) ≤ n
  | _ => False

/-- With blanks in a part or after it, a part of the same kind is recognized. It has the same meaning if the
blanks spare it. Blanks at the end of items may become a part of them. -/
def Sense.Widened (w b : List Char) (o : Nat) (t rest : List Char) (sense : Sense) : Prop :=
  match sense with
  | .element _ e => ∀ {r'}, Widens w b (t ++ rest) r' → Sees .element (Meets w b)
      (fun e' _ => sense.Spares (byteLength b) o t rest → e' = e) rest r'
  | .attributes _ as => ∀ {r'}, Meets w b (t ++ rest) r' → Sees .attributes (Meets w b)
      (fun as' _ => sense.Spares (byteLength b) o t rest → as' = as) rest r'
  | .value _ v => ∀ {r'}, Widens w b (t ++ rest) r' → Sees .value (Meets w b)
      (fun v' _ => sense.Spares (byteLength b) o t rest → v' = v) rest r'
  | .items _ contents => ∀ {r'}, Meets w b (t ++ rest) r' → Sees .items (Widens w b)
      (fun contents' _ =>
        (sense.Spares (byteLength b) o t rest → (byteLength b = byteLength (t ++ rest) → r' = t ++ rest) →
          contents' = contents) ∧
        (byteLength b = byteLength rest → (contents' = [] → contents = []) ∧
          Reduction.trimContent contents' = Reduction.trimContent contents)) rest r'
  | .item _ i => ∀ {r'}, Widens w b (t ++ rest) r' → Sees .item (Meets w b)
      (fun i' rest' => (sense.Spares (byteLength b) o t rest → i' = i) ∧
        (byteLength b = byteLength rest → (i' = i ∧ ∀ text, i ≠ .literal text) ∨
          rest' = rest ∧ Reduction.trimContent [i'] = Reduction.trimContent [i])) rest r'
  | .pieces stopAtColon _ cells => ∀ {r'}, Meets w b (t ++ rest) r' →
      Sees (.pieces stopAtColon) (Widens w b)
        (fun cells' _ => sense.Spares (byteLength b) o t rest → cells' = cells) rest r'
  | .piece stopAtColon _ cells => ∀ {r'}, Widens w b (t ++ rest) r' →
      Sees (.piece stopAtColon) (Meets w b)
        (fun cells' _ => sense.Spares (byteLength b) o t rest → cells' = cells) rest r'
  | .noNested => ∀ {r'}, Widens w b (t ++ rest) r' → ∀ o, Recognizes .noNested o [] r'
  | .noDict => ∀ {r'}, Widens w b (t ++ rest) r' → ∀ o, Recognizes .noDict o [] r'

/-- The front of an open tag, or the tag of a self-closing element. -/
theorem Widens.openTag {name v' mark : List Char} {K}
    (h : Widens w b ('<' :: v ++ name ++ t ++ v' ++ mark ++ s) r') (hw : Blanks w) (hv : Blanks v)
    (hname : IsMarkupName name) (hhalts : Halts Cursor.isNameChar t) (hv' : Blanks v') (hmark : EndsTag mark)
    (hattrs : ∀ {r'}, Meets w b (t ++ (v' ++ mark ++ s)) r' →
      Sees .attributes (Meets w b) K (v' ++ mark ++ s) r') (o : Nat) :
    ∃ v₁ t' v₂ s' attrs as rest', r' = '<' :: v₁ ++ name ++ t' ++ v₂ ++ mark ++ s' ∧ Blanks v₁ ∧
      Halts Cursor.isNameChar t' ∧ Blanks v₂ ∧ Meets w b s s' ∧ K as rest' ∧
      Recognizes (.attributes attrs as) (o + byteLength ('<' :: v₁ ++ name)) t' (v₂ ++ mark ++ s') := by
  have hhalts' : Halts Cursor.isNameChar (t ++ (v' ++ mark ++ s)) := by
    rw [List.append_assoc v']
    exact hhalts.append (hv'.halts_isNameChar hmark.halts_isNameChar)
  obtain ⟨v₁, r₁, rfl, hv₁, hhalts₁, hmeets₁⟩ :=
    Widens.tag (m := ['<']) (by simpa using h) hw (solid_one (by decide)) hv hname hhalts'
  obtain ⟨attrs, as, t', r₂, rfl, hmeets₂, hK, hattrs⟩ := hattrs hmeets₁ (o + byteLength ('<' :: v₁ ++ name))
  have hsolid : Solid mark := by
    obtain rfl | rfl := hmark
    · exact solid_ending
    · exact solid_one (by decide)
  obtain ⟨v₂, s', rfl, hv₂, hmeets₃⟩ := hmeets₂.token hw hv' hmark.ne_nil hsolid
  exact ⟨v₁, t', v₂, s', attrs, as, _, by simp, hv₁, hhalts₁.of_append, hv₂, hmeets₃, hK, hattrs⟩

theorem Widens.inside {opening closing : Char} {nodes : List Node} {cells : List SourceCell} {o : Nat}
    (h : Widens w b (opening :: t ++ [closing] ++ rest) r') (hopening : isBlank opening = false)
    (hclosing : isBlank closing = false)
    (hpieces : (Sense.pieces false nodes cells).Widened w b o t ([closing] ++ rest)) (o' : Nat) :
    ∃ t' rest' nodes' cells', r' = opening :: t' ++ [closing] ++ rest' ∧ Meets w b rest rest' ∧
      (byteLength b ≤ byteLength rest ∨ byteLength (opening :: t ++ [closing] ++ rest) ≤ byteLength b →
        cells' = cells) ∧ Recognizes (.pieces false nodes' cells') o' t' ([closing] ++ rest') := by
  obtain ⟨r₁, rfl, hmeets⟩ := h.token (t := [opening]) (s := t ++ ([closing] ++ rest)) (by simp)
    (solid_one hopening)
  obtain ⟨nodes', cells', t', r₂, rfl, hwide, hsame, hpieces⟩ := hpieces hmeets o'
  obtain ⟨rest', rfl, hmeets'⟩ := hwide.token rfl (solid_one hclosing)
  refine ⟨t', rest', nodes', cells', by simp, hmeets', fun hplace => hsame ?_, hpieces⟩
  have hopen := opening.utf8Size_pos
  have hclose := closing.utf8Size_pos
  simp only [Sense.Spares, Text.byteLength_append, Text.byteLength_cons, Text.byteLength_nil] at hplace ⊢
  omega

/-- The attributes of a tag, if the blanks are put beside the tag or into one of its gaps. -/
theorem spares_attributes {n : Nat} {name : List Char} (tail : List Char) (attrs : List Node)
    (as : List Attribute)
    (hname : IsMarkupName name)
    (h : n ≤ byteLength s ∨ byteLength ('<' :: v ++ name ++ (t ++ s)) ≤ n ∨
      ∃ gap ∈ Node.tagGaps o ['<'] v name tail attrs,
        gap.Touches (o + byteLength ('<' :: v ++ name ++ (t ++ s)) - n)) :
    (Sense.attributes attrs as).Spares n (o + byteLength ('<' :: v ++ name)) t s := by
  have hpos := byteLength_pos hname.ne_nil
  have hlen : byteLength ('<' :: v ++ name ++ (t ++ s)) =
      byteLength ('<' :: v) + byteLength name + byteLength (t ++ s) := by
    rw [Text.byteLength_append, Text.byteLength_append]
  obtain h | h | ⟨gap, hgap, htouch⟩ := h
  · exact .inl h
  · exact .inr (.inl (by omega))
  · obtain rfl | hgap := List.mem_cons.mp hgap
    · have hstop : _ ≤ o + byteLength ('<' :: v) := htouch.2
      exact .inr (.inl (by omega))
    · refine .inr (.inr ⟨_, gap, hgap, ?_⟩)
      rw [Nat.add_assoc o, ← Text.byteLength_append]
      exact htouch

end Parts

theorem Recognizes.items_nil {nodes : List Node} {contents : List ContentItem} {o : Nat} {rest : List Char}
    (h : Recognizes (.items nodes contents) o [] rest) : contents = [] := by
  generalize ht : ([] : List Char) = t at h
  cases h with
  | noItems _ => rfl
  | items hitem _ => exact absurd (List.append_eq_nil_iff.mp ht.symm).1 hitem.item_start.1

theorem Recognizes.attributes_start {nodes : List Node} {as : List Attribute} {o stop : Nat}
    {t rest : List Char} {gap : Span} (h : Recognizes (.attributes nodes as) o t rest)
    (hgap : gap ∈ Node.blankGapsBetween o stop nodes) : o ≤ gap.start := by
  generalize hsense : Sense.attributes nodes as = sense at h
  induction h generalizing nodes as with
  | noAttributes _ =>
    cases hsense
    obtain rfl := List.mem_singleton.mp hgap
    exact Nat.le_refl _
  | moreAttributes _ _ _ _ _ _ _ _ ih =>
    cases hsense
    obtain rfl | rfl | hgap := Node.mem_gapsBetween_attribute.mp hgap
    · exact Nat.le_refl _
    · exact Nat.le_add_right _ _
    · exact Nat.le_trans (Nat.le_add_right _ _) (ih hgap rfl)
  | _ => cases hsense

/-- The attributes and the items of an element, if the blanks are put beside it or into one of its gaps. -/
theorem spares_normal {o n : Nat} {v name t v' opening u body s s' closing rest : List Char}
    {attrs items : List Node} {as : List Attribute} {contents : List ContentItem} {e : Element}
    (hv : Blanks v) (hname : IsMarkupName name) (hhalts : Halts Cursor.isNameChar t)
    (hattrs : Recognizes (.attributes attrs as) (o + byteLength ('<' :: v ++ name)) t
      (v' ++ ['>'] ++ (u ++ (body ++ (closing ++ rest)))))
    (hv' : Blanks v') (hopening : opening = '<' :: v ++ name ++ t ++ v' ++ ['>'])
    (hitems : Recognizes (.items items contents) (o + byteLength (opening ++ u)) body (closing ++ rest))
    (hs : Blanks s) (hs' : Blanks s') (hclosing : closing = '<' :: '/' :: s ++ name ++ s' ++ ['>'])
    (h : (Sense.element ⟨.normal, .over o (opening ++ u ++ body ++ closing),
        [⟨.openTag, .over o opening, .leafOver .tagName (o + byteLength ('<' :: v)) name :: attrs⟩,
          ⟨.content, .over (o + byteLength (opening ++ u)) body, items⟩,
          ⟨.closeTag, .over (o + byteLength (opening ++ u ++ body)) closing,
            [.leafOver .tagName (o + byteLength (opening ++ u ++ body ++ '<' :: '/' :: s)) name]⟩]⟩ e).Spares
        n o (opening ++ u ++ body ++ closing) rest) :
    (Sense.attributes attrs as).Spares n (o + byteLength ('<' :: v ++ name)) t
        (v' ++ ['>'] ++ (u ++ (body ++ (closing ++ rest)))) ∧
      (n = byteLength (closing ++ rest) ∨
        (Sense.items items contents).Spares n (o + byteLength (opening ++ u)) body (closing ++ rest)) := by
  have hwhole : '<' :: v ++ name ++ (t ++ (v' ++ ['>'] ++ (u ++ (body ++ (closing ++ rest))))) =
      opening ++ u ++ body ++ closing ++ rest := by simp [hopening]
  have hpos : 0 < byteLength opening := byteLength_pos (by simp [hopening])
  have hpos' : 0 < byteLength closing := byteLength_pos (by simp [hclosing])
  have hplace := spares_attributes (o := o) (n := n) (v := v) (t := t)
    (s := v' ++ ['>'] ++ (u ++ (body ++ (closing ++ rest)))) (t ++ v') attrs as hname
  rw [hwhole] at hplace
  obtain h | h | ⟨gap, hgap, htouch⟩ := h
  · refine ⟨hplace (.inl ?_), .inr (.inl ?_)⟩ <;> (simp only [Text.byteLength_append]; omega)
  · refine ⟨hplace (.inr (.inl h)), .inr (.inr (.inl ?_))⟩
    simp only [Text.byteLength_append] at h ⊢
    omega
  have hplace₃ := fun hgap => hplace (.inr (.inr ⟨gap, hgap, htouch⟩))
  obtain ⟨hstart, hstop⟩ := htouch
  rw [Text.byteLength_append, Text.byteLength_append, Text.byteLength_append, Text.byteLength_append]
    at hstart hstop
  have htag : opening = ['<'] ++ v ++ name ++ (t ++ v') ++ ['>'] := by simp [hopening]
  obtain hgap | rfl | hgap | rfl | hgap := (Node.mem_blankGaps_normal htag hclosing).mp hgap
  · have hbound := (isGap_tag (.inl rfl) hv hname hhalts hv' (.inr rfl) hattrs.gapped hgap).bounds
    rw [show ['<'] ++ v ++ name ++ t ++ v' ++ ['>'] = opening from hopening.symm] at hbound
    refine ⟨hplace₃ hgap, .inr (.inr (.inl ?_))⟩
    simp only [Text.byteLength_append]
    omega
  · simp only [Text.byteLength_append] at hstart hstop
    refine ⟨hplace (.inl ?_), .inr (.inr (.inl ?_))⟩ <;> (simp only [Text.byteLength_append]; omega)
  · have hbound := (hitems.gapped gap hgap).bounds
    simp only [Text.byteLength_append] at hbound
    refine ⟨hplace (.inl ?_), .inr (.inr (.inr ⟨gap, hgap, ?_⟩))⟩
    · simp only [Text.byteLength_append]
      omega
    · simp only [Span.Touches, Text.byteLength_append]
      omega
  · simp only [Text.byteLength_append] at hstart hstop
    refine ⟨hplace (.inl ?_), .inl ?_⟩ <;> (simp only [Text.byteLength_append]; omega)
  · have hclose : IsGap _ _ rest gap := isGap_tag (t := []) (.inr rfl) hs hname halts_nil hs' (.inr rfl)
      gapped_noAttributes hgap
    have hbound := hclose.bounds
    simp only [Text.byteLength_append] at hbound
    refine ⟨hplace (.inl ?_), .inr (.inl ?_)⟩ <;> (simp only [Text.byteLength_append]; omega)

/-- A part is still recognized after blanks are put into the text. -/
theorem Recognizes.widened {w t rest : List Char} {sense : Sense} {o : Nat} (hw : Blanks w)
    (h : Recognizes sense o t rest) : sense.Widened w b o t rest := by
  have hcontent : ∀ c ∈ w, (!Reader.isContentMark c) = true := fun c hc => by
    simp [isContentMark_of_isBlank (hw c hc)]
  have hplain : ∀ stopAtColon, ∀ c ∈ w, isPlainChar stopAtColon c = true := fun stopAtColon c hc =>
    isPlainChar_of_isBlank (hw c hc) stopAtColon
  induction h with
  | @selfClosing o v name t v' attrs as text rest hv hname hhalts _ hv' htext ih =>
    intro r' hwide o'
    have hwhole : text ++ rest = '<' :: v ++ name ++ (t ++ (v' ++ ['/', '>'] ++ rest)) := by simp [htext]
    obtain ⟨v₁, t', v₂, r₁, attrs', as', _, rfl, hv₁, hhalts₁, hv₂, hmeets, hsame, hattrs⟩ :=
      Widens.openTag (htext ▸ hwide) hw hv hname hhalts hv' (.inl rfl) ih o'
    refine ⟨_, _, _, r₁, by simp, hmeets, fun hspares => ?_, .selfClosing hv₁ hname hhalts₁ hattrs hv₂ rfl⟩
    have htag : text = ['<'] ++ v ++ name ++ (t ++ v') ++ ['/', '>'] := by simp [htext]
    simp only [Sense.Spares, Node.blankGaps_selfClosing htag, hwhole] at hspares
    rw [hsame (spares_attributes _ attrs as hname (hspares.imp_left fun hle => ?_))]
    rw [Text.byteLength_append]
    omega
  | @normal o v name t v' attrs as opening u body items contents s s' closing rest hv hname hhalts hattrs
      hv' hopening hu hbody hitems hs hs' hclosing ih₁ ih₂ =>
    intro r' hwide o'
    have hassoc : v' ++ ['>'] ++ u ++ body ++ closing ++ rest =
        v' ++ ['>'] ++ (u ++ (body ++ (closing ++ rest))) := by simp
    rw [hassoc] at ih₁ hattrs
    obtain ⟨v₁, t', v₂, r₁, attrs', as', _, rfl, hv₁, hhalts₁, hv₂, hmeets₁, hsame₁, hattrs'⟩ :=
      Widens.openTag (s := u ++ (body ++ (closing ++ rest))) (by simpa [hopening] using hwide) hw hv hname
        hhalts hv' (.inr rfl) ih₁ o'
    have hbody' : Halts isBlank (body ++ (closing ++ rest)) := by
      rw [hclosing]
      exact hbody.append (halts_cons.mpr (by decide))
    obtain ⟨u₁, r₂, rfl, hu₁, hblank, hwide₂⟩ := hmeets₁.blanks hw hu hbody'
    obtain ⟨items', contents', body', r₃, rfl, hwide₃, ⟨hsame₂, hpad⟩, hitems'⟩ :=
      ih₂ (.widens hwide₂) (o' + byteLength ('<' :: v₁ ++ name ++ t' ++ v₂ ++ ['>'] ++ u₁))
    obtain ⟨s₁, r₄, rfl, hs₁, -, hmeets₄⟩ :=
      Widens.tag (m := ['<', '/']) (s := s' ++ ['>'] ++ rest) (by simpa [hclosing] using hwide₃)
        hw solid_closing hs hname
        (by rw [List.append_assoc]; exact hs'.halts_isNameChar (halts_cons.mpr (by decide)))
    obtain ⟨s₂, r₅, rfl, hs₂, hmeets₅⟩ := hmeets₄.token hw hs' (by simp) (solid_one (by decide))
    have hattrs₁ : Recognizes (.attributes attrs' as') (o' + byteLength ('<' :: v₁ ++ name)) t'
        (v₂ ++ ['>'] ++ u₁ ++ body' ++ ('<' :: '/' :: s₁ ++ name ++ s₂ ++ ['>']) ++ r₅) := by
      simpa using hattrs'
    have hitems₁ : Recognizes (.items items' contents')
        (o' + byteLength ('<' :: v₁ ++ name ++ t' ++ v₂ ++ ['>'] ++ u₁)) body'
        (('<' :: '/' :: s₁ ++ name ++ s₂ ++ ['>']) ++ r₅) := by simpa using hitems'
    refine ⟨_, _, _, r₅, by simp, hmeets₅, fun hspares => ?_, .normal hv₁ hname hhalts₁ hattrs₁ hv₂ rfl hu₁
      hblank.of_append hitems₁ hs₁ hs₂ rfl⟩
    obtain ⟨hplace₁, hplace₂⟩ :=
      spares_normal hv hname hhalts hattrs hv' hopening hitems hs hs' hclosing hspares
    rw [hsame₁ hplace₁]
    obtain hend | hplace₂ := hplace₂
    · rw [(hpad hend).2]
    · rw [hsame₂ hplace₂ fun heq => hwide₂.eq_of_le (Nat.le_of_eq heq.symm)]
  | noAttributes hhalts =>
    intro r' hmeets o'
    have hwide := hmeets.dropWhile hw fun _ hc => hc
    exact ⟨[], [], [], r', rfl, hmeets, fun _ => rfl, .noAttributes (hwide.halts hhalts)⟩
  | @moreAttributes o v name u u' t node value text more attrs as rest hv hname hu hu' hvalue htext hattrs
      ih₁ ih₂ =>
    intro r' hmeets o'
    obtain ⟨v₁, r₁, rfl, hv₁, -, hwide₁⟩ :=
      Meets.blanks (s := name ++ (u ++ ['='] ++ (u' ++ (t ++ (more ++ rest)))))
        (by simpa [htext] using hmeets) hw hv hname.halts_isBlank
    obtain ⟨r₂, rfl, hmeets₂⟩ := hwide₁.token rfl (solid_name hname)
    obtain ⟨u₁, r₃, rfl, hu₁, hmeets₃⟩ := hmeets₂.token hw hu (by simp) (solid_one (by decide))
    obtain ⟨u₂, r₄, rfl, hu₂, -, hwide₄⟩ := hmeets₃.blanks hw hu' (hvalue.value_start _)
    obtain ⟨node', value', t', r₅, rfl, hmeets₅, hsame₁, hvalue'⟩ :=
      ih₁ hwide₄ (o' + byteLength (v₁ ++ name ++ u₁ ++ '=' :: u₂))
    obtain ⟨attrs', as', more', r₆, rfl, hmeets₆, hsame₂, hattrs'⟩ :=
      ih₂ hmeets₅ (o' + byteLength (v₁ ++ (name ++ u₁ ++ '=' :: u₂ ++ t')))
    refine ⟨_, _, _, r₆, by simp, hmeets₆, fun hspares => ?_,
      .moreAttributes hv₁ hname hu₁ hu₂ hvalue' rfl hattrs'⟩
    obtain ⟨front, c, hlast, -⟩ := hvalue.value_last
    have hpos : 0 < byteLength t := byteLength_pos (by simp [hlast])
    have hfront : byteLength (v ++ text) = byteLength (v ++ name ++ u ++ '=' :: u') + byteLength t := by
      rw [htext, ← Text.byteLength_append]
      simp
    have hname' := byteLength_pos hname.ne_nil
    obtain ⟨hplace₁, hplace₂⟩ : (Sense.value node value).Spares (byteLength b) o t (more ++ rest) ∧
        (Sense.attributes attrs as).Spares (byteLength b) (o + byteLength (v ++ text)) more rest := by
      simp only [Sense.Spares, Text.byteLength_append] at hspares hfront ⊢
      obtain h | h | ⟨stop, gap, hgap, htouch⟩ := hspares
      · exact ⟨.inl (by omega), .inl h⟩
      · exact ⟨.inr (by omega), .inr (.inl (by omega))⟩
      obtain ⟨hstart, hstop⟩ := htouch
      obtain rfl | rfl | hgap := Node.mem_gapsBetween_attribute.mp hgap
      · simp only at hstop
        exact ⟨.inr (by omega), .inr (.inl (by omega))⟩
      · simp only [hvalue.value_start_eq, Text.byteLength_append] at hstop
        exact ⟨.inr (by omega), .inr (.inl (by omega))⟩
      · have hfirst := hattrs.attributes_start hgap
        rw [Text.byteLength_append] at hfirst
        refine ⟨.inl (by omega), .inr (.inr ⟨stop, gap, by simpa using hgap, ?_⟩)⟩
        simp only [Span.Touches]
        omega
    rw [hsame₁ hplace₁, hsame₂ hplace₂]
  | @quoted o quote body rest hquote hbody =>
    intro r' hwide o'
    have hblank := isBlank_of_stringQuotes hquote
    obtain ⟨r₁, rfl, hmeets₁⟩ := hwide.token (t := [quote]) (s := body ++ ([quote] ++ rest)) (by simp)
      (solid_one hblank)
    -- all characters up to the quote are passed over, blanks as well
    obtain ⟨body', r₂, rfl, hbody', -, hwide₂⟩ := hmeets₁.run (p := (· != quote)) hw
      (fun c hc => by
        rw [bne_iff_ne]
        rintro rfl
        rw [hblank] at hc
        cases hc)
      (fun c hc => by simpa using ne_of_mem_of_not_mem hc hbody) (halts_cons.mpr (by simp))
    obtain ⟨r₃, rfl, hmeets₃⟩ := hwide₂.token rfl (solid_one hblank)
    have hfree : quote ∉ body' := fun hmem => by simpa using hbody' quote hmem
    refine ⟨_, _, _, r₃, by simp, hmeets₃, fun hspares => ?_, .quoted hquote hfree⟩
    have hpos := quote.utf8Size_pos
    have hsame : quote :: body' = quote :: body := by
      refine Widens.extent (by simpa using hwide) (.widens hwide₂) (List.cons_ne_nil _ _) ?_
      simp only [Sense.Spares, Text.byteLength_append, Text.byteLength_cons] at hspares ⊢
      omega
    rw [(List.cons.inj hsame).2]
  | @dict o key keys keyCells value values valueCells rest _ _ ih₁ ih₂ =>
    intro r' hwide o'
    obtain ⟨r₁, rfl, hmeets₁⟩ := hwide.token (t := ['\x7b'])
      (s := key ++ (':' :: value ++ ['\x7d'] ++ rest)) (by simp) (solid_one (by decide))
    obtain ⟨keys', keyCells', key', r₂, rfl, hwide₂, hsame₁, hkeys⟩ := ih₁ hmeets₁ (o' + 1)
    obtain ⟨r₃, rfl, hmeets₃⟩ := hwide₂.token (t := [':']) (s := value ++ (['\x7d'] ++ rest)) (by simp)
      (solid_one (by decide))
    obtain ⟨values', valueCells', value', r₄, rfl, hwide₄, hsame₂, hvalues⟩ :=
      ih₂ hmeets₃ (o' + byteLength ('\x7b' :: key' ++ [':']))
    obtain ⟨r₅, rfl, hmeets₅⟩ := hwide₄.token rfl (solid_one (by decide))
    have hkeys' : Recognizes (.pieces true keys' keyCells') (o' + 1) key'
        (':' :: value' ++ ['\x7d'] ++ r₅) := by simpa using hkeys
    refine ⟨_, _, _, r₅, by simp, hmeets₅, fun hspares => ?_, .dict hkeys' hvalues⟩
    have hopen := '\x7b'.utf8Size_pos
    have hclose := '\x7d'.utf8Size_pos
    simp only [Sense.Spares, Text.byteLength_append, Text.byteLength_cons, Text.byteLength_nil] at hspares
    rw [hsame₁ (by simp [Sense.Spares]; omega), hsame₂ (by simp [Sense.Spares]; omega)]
  | @braces o t nodes cells rest _ _ ih₁ ih₂ =>
    intro r' hwide o'
    have hdict := ih₁ hwide o'
    obtain ⟨t', r₁, nodes', cells', rfl, hmeets, hsame, hpieces⟩ :=
      hwide.inside (by decide) (by decide) ih₂ (o' + 1)
    exact ⟨_, _, _, r₁, rfl, hmeets, fun hspares => by rw [hsame hspares], .braces hdict hpieces⟩
  | @brackets o t nodes cells rest _ ih =>
    intro r' hwide o'
    obtain ⟨t', r₁, nodes', cells', rfl, hmeets, hsame, hpieces⟩ :=
      hwide.inside (by decide) (by decide) ih (o' + 1)
    exact ⟨_, _, _, r₁, rfl, hmeets, fun hspares => by rw [hsame hspares], .brackets hpieces⟩
  | @noItems o rest hend =>
    intro r' hmeets
    obtain hwide | ⟨k, hk, hr, rfl⟩ := hmeets.widens_or_here
    · refine fun o' => ⟨[], [], [], r', rfl, hwide, ⟨fun _ _ => rfl, fun _ => ⟨id, rfl⟩⟩, .noItems ?_⟩
      refine hend.imp (fun hnil => ?_) fun ⟨s, hs⟩ => ?_
      · have hhead := hwide.head?
        rw [hnil] at hhead
        exact List.head?_eq_none_iff.mp hhead
      · obtain ⟨s', hs', -⟩ := hwide.token hs.symm solid_closing
        exact ⟨s', hs'.symm⟩
    · -- the blanks are a text
      obtain rfl : rest = b := hr
      have hhalts : Halts (fun c => !Reader.isContentMark c) rest := by
        obtain rfl | ⟨s, rfl⟩ := hend
        · exact halts_nil
        · exact halts_cons.mpr (by decide)
      refine fun o' => ⟨_, _, w ++ [], rest, by simp, .same (Nat.le_refl _), ⟨fun _ hsame => ?_, fun _ => ?_⟩,
        .items (.text (ne_nil_of_head? hk) hcontent hhalts) (.noItems hend)⟩
      · exact absurd (List.append_left_eq_self.mp (hsame rfl)) (ne_nil_of_head? hk)
      · exact ⟨fun _ => rfl, Reduction.trimContent_blanks hw⟩
  | @items o t node item u nodes more rest hitem hmore ih₁ ih₂ =>
    intro r' hmeets
    rw [List.append_assoc] at hmeets
    have hpos := byteLength_pos hitem.item_start.1
    obtain hwide | ⟨k, hk, rfl, rfl⟩ := hmeets.widens_or_here
    · intro o'
      obtain ⟨node', item', t', r₁, rfl, hmeets, ⟨hsame₁, hlast⟩, hitem'⟩ := ih₁ hwide o'
      obtain ⟨nodes', more', u', r₂, rfl, hwide', ⟨hsame₂, hpad⟩, hmore'⟩ := ih₂ hmeets (o' + byteLength t')
      refine ⟨_, _, t' ++ u', r₂, by simp, hwide', ⟨fun hspares _ => ?_, fun hend =>
        ⟨fun hnil => absurd hnil (List.cons_ne_nil _ _), ?_⟩⟩, .items hitem' hmore'⟩
      · obtain ⟨hplace₁, hplace₂, hne⟩ : (Sense.item node item).Spares (byteLength b) o t (u ++ rest) ∧
            (Sense.items nodes more).Spares (byteLength b) (o + byteLength t) u rest ∧
            byteLength b ≠ byteLength (u ++ rest) := by
          simp only [Sense.Spares, List.append_assoc, Text.byteLength_append] at hspares ⊢
          obtain h | h | ⟨gap, hgap, htouch⟩ := hspares
          · exact ⟨.inl (by omega), .inl h, by omega⟩
          · exact ⟨.inr (.inl h), .inr (.inl (by omega)), by omega⟩
          obtain ⟨hstart, hstop⟩ := id htouch
          obtain hgap | hgap := List.mem_append.mp hgap
          · have hbound := (hitem.gapped gap hgap).bounds
            exact ⟨.inr (.inr ⟨gap, hgap, htouch⟩), .inr (.inl (by omega)), by omega⟩
          · have hbound := (hmore.gapped gap hgap).bounds
            refine ⟨.inl (by omega), .inr (.inr ⟨gap, hgap, ?_⟩), by omega⟩
            rw [Nat.add_assoc]
            exact htouch
        rw [hsame₁ hplace₁, hsame₂ hplace₂ fun heq => absurd heq hne]
      · by_cases hu : u = []
        · subst hu
          obtain rfl := hmore.items_nil
          obtain ⟨rfl, hliteral⟩ | ⟨hr₁, htrim⟩ := hlast hend
          · by_cases hnil : more' = []
            · rw [hnil]
            · rw [Reduction.trimContent_cons hnil, (hpad hend).2, Reduction.trimContent_single hliteral]
              rfl
          · rw [hsame₂ (.inr (.inl (Nat.le_of_eq hend.symm))) fun _ => hr₁]
            exact htrim
        · have hmore₀ : more ≠ [] := by
            rintro rfl
            cases hmore
            exact hu rfl
          have hlen := byteLength_pos hu
          rw [hsame₁ (.inl (by rw [Text.byteLength_append]; omega)), Reduction.trimContent_cons hmore₀,
            Reduction.trimContent_cons (mt (hpad hend).1 hmore₀), (hpad hend).2]
    -- the blanks are a text, or begin the text that comes next
    · have hagain : Sees .items (Widens w (t ++ (u ++ rest))) (fun _ _ => True) rest (t ++ (u ++ rest)) := by
        intro o'
        obtain ⟨node', item', t', r₁, hr₁, hmeets, -, hitem'⟩ := ih₁ (.same (Nat.le_refl _)) o'
        obtain ⟨nodes', more', u', r₂, rfl, hwide', -, hmore'⟩ := ih₂ hmeets (o' + byteLength t')
        exact ⟨_, _, t' ++ u', r₂, by simp [hr₁], hwide', trivial, .items hitem' hmore'⟩
      have hblanks := ne_nil_of_head? hk
      have hfirst : w ++ (t ++ (u ++ rest)) ≠ t ++ u ++ rest := by simpa using hblanks
      have hlast : byteLength (t ++ (u ++ rest)) ≠ byteLength rest := by
        simp only [Text.byteLength_append]
        omega
      obtain hhalts | ⟨ht, hhalts⟩ := hitem.item_run
      · exact hagain.text
          (fun _ _ => ⟨fun _ h => absurd (h (by simp)) hfirst, fun h => absurd h hlast⟩) hblanks hcontent hhalts
      · rw [← List.append_assoc w t] at hfirst ⊢
        refine Sees.text (ih₂ (.widens (.same ?_)))
          (fun _ _ => ⟨fun _ h => absurd (h (by simp)) hfirst, fun h => absurd h hlast⟩)
          (List.append_ne_nil_of_left_ne_nil hblanks t) ?_ hhalts
        · rw [Text.byteLength_append t]
          exact Nat.le_add_left _ _
        · exact fun c hc => (List.mem_append.mp hc).elim (hcontent c) (ht c)
  | elementItem _ ih =>
    intro r' hwide o'
    obtain ⟨node', e', t', r₁, rfl, hmeets, hsame, he⟩ := ih hwide o'
    refine ⟨_, _, _, r₁, rfl, hmeets, ⟨fun hspares => ?_, fun hend => .inl ⟨?_, fun _ heq => nomatch heq⟩⟩,
      .elementItem he⟩
    · rw [hsame (hspares.imp_left Nat.le_of_lt)]
    · rw [hsame (.inl (Nat.le_of_eq hend))]
  | @braceItem o t nodes cells rest _ ih =>
    intro r' hwide o'
    obtain ⟨t', r₁, nodes', cells', rfl, hmeets, hsame, hpieces⟩ :=
      hwide.inside (by decide) (by decide) ih (o' + 1)
    refine ⟨_, _, _, r₁, rfl, hmeets, ⟨fun hspares => ?_, fun hend => .inl ⟨?_, fun _ heq => nomatch heq⟩⟩,
      .braceItem hpieces⟩
    · rw [hsame (hspares.imp Nat.le_of_lt fun h => h.resolve_right fun ⟨_, hgap, _⟩ => nomatch hgap)]
    · rw [hsame (.inl (Nat.le_of_eq hend))]
  | @bracketItem o t nodes cells rest _ ih =>
    intro r' hwide o'
    obtain ⟨t', r₁, nodes', cells', rfl, hmeets, hsame, hpieces⟩ :=
      hwide.inside (by decide) (by decide) ih (o' + 1)
    refine ⟨_, _, _, r₁, rfl, hmeets, ⟨fun hspares => ?_, fun hend => .inl ⟨?_, fun _ heq => nomatch heq⟩⟩,
      .bracketItem hpieces⟩
    · rw [hsame (hspares.imp Nat.le_of_lt fun h => h.resolve_right fun ⟨_, hgap, _⟩ => nomatch hgap)]
    · rw [hsame (.inl (Nat.le_of_eq hend))]
  | @text o t rest hne ht hhalts =>
    intro r' hwide o'
    obtain ⟨t', r₁, rfl, hne', ht', hhalts', hwide'⟩ := hwide.run hw
      (fun c hc => by simp [isContentMark_of_isBlank hc]) hne ht hhalts
    refine ⟨_, _, t', r₁, rfl, .widens hwide', ⟨fun hspares => ?_, fun hend => .inr ?_⟩,
      .text hne' ht' hhalts'⟩
    · rw [hwide.extent (.widens hwide') hne
        (hspares.imp_right fun h => h.resolve_right fun ⟨_, hgap, _⟩ => nomatch hgap)]
    · obtain rfl := hwide'.eq_of_le (Nat.le_of_eq hend.symm)
      have hpos := byteLength_pos hne
      obtain ⟨x, hx, hx'⟩ := (Meets.widens hwide).exists_of_lt (by rw [Text.byteLength_append]; omega)
      have hlen := congrArg byteLength hx
      rw [Text.byteLength_append, Text.byteLength_append] at hlen
      obtain ⟨q, q', hq, rfl, rfl⟩ := split_middle (q := []) (by simpa using hx) (by omega)
        (by rw [List.append_nil]; omega)
      obtain ⟨rfl, rfl⟩ := List.append_eq_nil_iff.mp hq.symm
      rw [List.nil_append, ← List.append_assoc] at hx'
      rw [List.append_cancel_right hx', List.append_nil]
      exact ⟨rfl, Reduction.trimContent_text hw⟩
  | @noPieces o stopAtColon rest hend =>
    intro r' hmeets
    obtain hwide | ⟨k, hk, hr, rfl⟩ := hmeets.widens_or_here
    · refine fun o' => ⟨[], [], [], r', rfl, hwide, fun _ => rfl, .noPieces ?_⟩
      rw [hwide.head?]
      exact hend
    · obtain rfl : rest = b := hr
      have hsees : Sees (.pieces stopAtColon) (Widens w rest) (fun _ _ => True) rest rest := fun o' =>
        ⟨[], [], [], rest, rfl, .same (Nat.le_refl _), trivial, .noPieces hend⟩
      refine hsees.plain (fun _ _ hspares => ?_) (ne_nil_of_head? hk) (hplain stopAtColon) fun x hx => ?_
      · simp [Sense.Spares] at hspares
      · rw [← Bool.not_eq_true]
        intro hplainChar
        cases (endsPieces_of_isPlainChar hplainChar).symm.trans (hend x hx)
  | @pieces o stopAtColon t node cells u nodes more rest hpiece _ ih₁ ih₂ =>
    obtain ⟨x, hx, -⟩ := hpiece.piece_start
    have hpos := byteLength_pos (ne_nil_of_head? hx)
    have hahead : ∀ {r'}, Widens w b (t ++ (u ++ rest)) r' → Sees (.pieces stopAtColon) (Widens w b)
        (fun cells' _ => (Sense.pieces stopAtColon (node :: nodes) (cells ++ more)).Spares (byteLength b) o
          (t ++ u) rest → cells' = cells ++ more) rest r' := by
      intro r' hwide o'
      obtain ⟨node', cells', t', r₁, rfl, hmeets, hsame₁, hpiece'⟩ := ih₁ hwide o'
      obtain ⟨nodes', more', u', r₂, rfl, hwide', hsame₂, hmore⟩ := ih₂ hmeets (o' + byteLength t')
      refine ⟨_, _, t' ++ u', r₂, by simp, hwide', fun hspares => ?_, .pieces hpiece' hmore⟩
      simp only [Sense.Spares, Text.byteLength_append] at hspares hsame₁ hsame₂
      rw [hsame₁ (by omega), hsame₂ (by omega)]
    intro r' hmeets
    rw [List.append_assoc] at hmeets
    obtain hwide | ⟨k, hk, rfl, rfl⟩ := hmeets.widens_or_here
    · exact hahead hwide
    · have hvacuous : ∀ cells' : List SourceCell, ∀ s : List Char,
          (Sense.pieces stopAtColon (node :: nodes) (cells ++ more)).Spares (byteLength (t ++ (u ++ rest))) o
            (t ++ u) rest → cells' = cells ++ more := by
        intro cells' _ hspares
        simp only [Sense.Spares, Text.byteLength_append] at hspares
        omega
      obtain hhalts | ⟨ht, hhalts⟩ := hpiece.piece_run
      · exact (hahead (.same (Nat.le_refl _))).plain hvacuous (ne_nil_of_head? hk) (hplain stopAtColon) hhalts
      · rw [← List.append_assoc w t]
        refine Sees.plain (ih₂ (.widens (.same ?_))) hvacuous ?_ ?_ hhalts
        · rw [Text.byteLength_append t]
          exact Nat.le_add_left _ _
        · exact List.append_ne_nil_of_left_ne_nil (ne_nil_of_head? hk) t
        · exact fun c hc => (List.mem_append.mp hc).elim (hplain stopAtColon c) (ht c)
  | @string o stopAtColon t rest ht hends =>
    intro r' hwide o'
    obtain ⟨t', r₁, ht', hends', rfl, hmeets⟩ := hwide.string rfl hw ht hends
    refine ⟨_, _, t', r₁, rfl, hmeets, fun hspares => ?_, .string ht' hends'⟩
    have hpiece : Recognizes (.piece stopAtColon _ _) o t rest := .string ht hends
    obtain ⟨x, hx, -⟩ := hpiece.piece_start
    rw [hwide.extent hmeets (ne_nil_of_head? hx) hspares]
  | @plain o stopAtColon t rest hne ht hhalts =>
    intro r' hwide o'
    obtain ⟨t', r₁, rfl, hne', ht', hhalts', hwide'⟩ := hwide.run hw
      (fun c hc => isPlainChar_of_isBlank hc stopAtColon) hne ht hhalts
    refine ⟨_, _, t', r₁, rfl, .widens hwide', fun hspares => ?_, .plain hne' ht' hhalts'⟩
    rw [hwide.extent (.widens hwide') hne hspares]
  | @group o stopAtColon rule opening closing t nodes cells rest hgroup _ _ ih₁ ih₂ =>
    intro r' hwide o'
    have hblanks : ∀ group ∈ groups, isBlank group.2.1 = false ∧ isBlank group.2.2 = false := by
      decide
    obtain ⟨hopening, hclosing⟩ := hblanks _ hgroup
    have hnested := fun hparen => ih₁ hparen hwide o'
    obtain ⟨t', r₁, nodes', cells', rfl, hmeets, hsame, hpieces⟩ :=
      hwide.inside hopening hclosing ih₂ (o' + 1)
    refine ⟨_, _, _, r₁, rfl, hmeets, fun hspares => ?_, .group hgroup hnested hpieces⟩
    rw [hsame (hspares.imp_left Nat.le_of_lt)]
  | @nested o stopAtColon v t node e v' text rest hv h hv' htext ih =>
    intro r' hwide o'
    obtain ⟨v₁, r₁, rfl, hv₁, hwide₁⟩ := Widens.paren (s := t ++ (v' ++ [')'] ++ rest))
      (by simpa [htext] using hwide) hw hv h.element_halts
    obtain ⟨node', e', t', r₂, rfl, hmeets₂, hsame, he⟩ := ih hwide₁ (o' + byteLength ('(' :: v₁))
    obtain ⟨v₂, r₃, rfl, hv₂, hmeets₃⟩ := hmeets₂.token hw hv' (by simp) (solid_one (by decide))
    refine ⟨_, _, _, r₃, by simp, hmeets₃, fun hspares => ?_, .nested hv₁ he hv₂ rfl⟩
    have hsame' : '(' :: v₁ ++ t' ++ v₂ ++ [')'] = text :=
      Widens.extent (by simpa using hwide) hmeets₃ (by simp [htext]) hspares
    simp only [Sense.Spares, htext, Text.byteLength_append, Text.byteLength_cons] at hspares
    rw [hsame', hsame (by simp only [Sense.Spares, Text.byteLength_append, Text.byteLength_cons]; omega)]
  | @noElement o v rest hv hhalts hstart =>
    intro r' hwide o'
    obtain ⟨v₁, r₁, rfl, hv₁, hwide₁⟩ := hwide.paren hw hv hhalts
    exact .noElement hv₁ (hwide₁.halts hhalts) (hwide₁.not_prefix hw (by decide) hstart)
  | @noParen o v t node e v' rest hv h hv' hhalts hclose ih =>
    intro r' hwide o'
    obtain ⟨v₁, r₁, rfl, hv₁, hwide₁⟩ := Widens.paren (s := t ++ (v' ++ rest))
      (by simpa using hwide) hw hv h.element_halts
    obtain ⟨node', e', t', r₂, rfl, hmeets₂, -, he⟩ := ih hwide₁ (o' + byteLength ('(' :: v₁))
    obtain ⟨v₂, r₃, rfl, hv₂, hblank, hwide₃⟩ := hmeets₂.blanks hw hv' hhalts
    simpa using Recognizes.noParen hv₁ he hv₂ hblank (hwide₃.not_prefix hw (by decide) hclose)
  | @noColon o key keys cells rest _ hcolon ih =>
    intro r' hwide o'
    obtain ⟨r₁, rfl, hmeets₁⟩ := hwide.token (t := ['\x7b']) (s := key ++ rest) (by simp)
      (solid_one (by decide))
    obtain ⟨keys', cells', key', r₂, rfl, hwide₂, -, hkeys⟩ := ih hmeets₁ (o' + 1)
    show Recognizes .noDict o' [] ('\x7b' :: key' ++ r₂)
    exact .noColon hkeys (hwide₂.not_prefix hw (by decide) hcolon)
  | @noBrace o key keys keyCells value values valueCells rest _ _ hclose ih₁ ih₂ =>
    intro r' hwide o'
    obtain ⟨r₁, rfl, hmeets₁⟩ := hwide.token (t := ['\x7b']) (s := key ++ (':' :: value ++ rest))
      (by simp) (solid_one (by decide))
    obtain ⟨keys', keyCells', key', r₂, rfl, hwide₂, -, hkeys⟩ := ih₁ hmeets₁ (o' + 1)
    obtain ⟨r₃, rfl, hmeets₃⟩ := hwide₂.token (t := [':']) (s := value ++ rest) (by simp)
      (solid_one (by decide))
    obtain ⟨values', valueCells', value', r₄, rfl, hwide₄, -, hvalues⟩ :=
      ih₂ hmeets₃ (o' + byteLength ('\x7b' :: key' ++ [':']))
    have hkeys' : Recognizes (.pieces true keys' keyCells') (o' + 1) key' (':' :: value' ++ r₄) := hkeys
    simpa using Recognizes.noBrace hkeys' hvalues (hwide₄.not_prefix hw (by decide) hclose)

end ComponentMarkup
