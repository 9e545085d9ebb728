import Mathlib
import ComponentMarkup.Proofs.Expr.Rereading
import ComponentMarkup.Proofs.Expr.Targets

/-!
# Printing undoes reading

What each part of an expression is printed as is read back by the reader of that part. `Rereads`
says so part by part; a list is read after the comma that its reader expects in front of it. From
this the main result follows: a source that is read as an expression without floats and without
attributes of integers gives an expression whose text is read as the same expression.
-/

namespace ComponentMarkup

open ComponentMarkup.Parser

variable {α : Type} {ts us vs ws : List Token} {s : Symbol} {t : Target} {e k a b : Expr}
  {es : List Expr} {d : Nat} {cs : List Clause} {args : List Argument} {l u : Option Expr}

/-- The symbols that close brackets. -/
def closing : List Symbol :=
  [.rparen, .rbracket, .rbrace]

/-- The tokens are read back as the part. -/
def Rereads : Part → List Token → Prop
  | .target t, ts => ∃ form : TargetForm, form.tokens = ts ∧ form.target Target.toTuple = t
  | .targets targets, ts =>
    (targets = [] → ts = []) ∧ ∀ form : TargetForm, ∃ items : TargetForms,
      items.tokens = form.tokens ++ (commaBefore targets ++ ts) ∧
        items.targets Target.toTuple = form.target Target.toTuple :: targets
  | .expr e, ts => Operand e ts
  | .items es, ts =>
    (es = [] → ts = []) ∧
      ∀ d us s, s ∈ closing → 12 * ts.length + 12 ≤ d →
        Leaves (moreItems d) (.symbol .comma :: (ts ++ .symbol s :: us)) es (.symbol s :: us)
  | .entries es, ts =>
    (es = [] → ts = []) ∧
      ∀ d us, 12 * ts.length + 12 ≤ d →
        Leaves (moreEntries d) (.symbol .comma :: (ts ++ .symbol .rbrace :: us)) es
          (.symbol .rbrace :: us)
  | .argument a, ts =>
    ∀ d done used us b ws, 12 * ts.length + 10 ≤ d → (∀ n ∈ a.keyword?, n ∉ used) →
      (us.head? = some (.symbol .comma) ∨ us.head? = some (.symbol .rparen)) →
      Leaves (nextArgument d (a :: done) (a.keyword?.toList ++ used)) us b ws →
      Leaves (arguments (d + 1) done used) (ts ++ us) b ws
  | .arguments args, ts =>
    (args = [] → ts = []) ∧
      ∀ d done used us, 12 * ts.length + 12 ≤ d →
        (args.filterMap Argument.keyword? ++ used).Nodup →
        Leaves (arguments d done used) (ts ++ .symbol .rparen :: us) (done.reverse ++ args) us
  | .links cs, ts =>
    (∀ us, binding us.head? < 5 → binding (ts ++ us).head? < 5) ∧
      ∀ d us, 12 * ts.length + 6 ≤ d → binding us.head? < 4 →
        Leaves (comparisons d) (ts ++ us) cs us
  | .clauses cs, ts =>
    (cs = [] → ts = []) ∧ (cs ≠ [] → ∃ rest, ts = .symbol .for :: rest) ∧
      ∀ d us s, s ∈ closing → 12 * ts.length + 10 ≤ d →
        Leaves (forClauses d) (ts ++ .symbol s :: us) cs (.symbol s :: us)
  | .conditions es, ts =>
    (∀ us, binding us.head? < 2 → binding (ts ++ us).head? < 2) ∧
      ∀ d us, 12 * ts.length + 10 ≤ d → binding us.head? < 1 →
        Leaves (conditionList d) (ts ++ us) es us
  | .bound b, ts =>
    (∀ e, b = some e → Operand e ts) ∧ (b = none → ts = []) ∧
      ∀ d us s, s ∈ [Symbol.colon, .comma, .rbracket] → 12 * ts.length + 10 ≤ d →
        Leaves (slicePart d) (ts ++ .symbol s :: us) b (.symbol s :: us)
  | .subscript e, ts =>
    (∃ x rest, ts = x :: rest ∧ ∀ s ∈ closing, x ≠ .symbol s) ∧
      ∀ d us s, s ∈ [Symbol.comma, .rbracket] → 12 * ts.length + 11 ≤ d →
        Leaves (subscript d) (ts ++ .symbol s :: us) e (.symbol s :: us)
  | .subscripts es, ts =>
    (es = [] → ts = []) ∧
      ∀ d us, 12 * ts.length + 13 ≤ d →
        Leaves (moreSubscripts d) (.symbol .comma :: (ts ++ .symbol .rbracket :: us)) es
          (.symbol .rbracket :: us)
  | .index i, ts =>
    ∀ d us, 12 * ts.length + 13 ≤ d →
      Leaves (subscripts d) (ts ++ .symbol .rbracket :: us) i (.symbol .rbracket :: us)
  | .source e, ts => Operand e ts

/-! ## Commas -/

/-- Further items are read up to what closes the list, whether there are any or not. -/
theorem leaves_further {p : Parser (List α)} {items : List α} (hnil : items = [] → ts = [])
    (hend : Leaves p us [] us) (hmore : Leaves p (.symbol .comma :: (ts ++ us)) items us) :
    Leaves p (commaBefore items ++ (ts ++ us)) items us := by
  cases items with
  | nil =>
    rw [hnil rfl]
    exact hend
  | cons item items => exact hmore

/-- The commas of a tuple: one after each item but the last, or after the only one. -/
theorem commas_tuple (item : α) {items : List α} (us : List Token) (hnil : items = [] → ts = []) :
    commaBefore items ++ (ts ++ (loneComma (item :: items) ++ us)) = .symbol .comma :: (ts ++ us) := by
  cases items with
  | nil =>
    rw [hnil rfl]
    rfl
  | cons item' items => simp [commaBefore, loneComma]

/-- The next token is a comma, a colon or closes a bracket. -/
def Delimited (ts : List Token) : Prop :=
  ∃ s ∈ [Symbol.comma, .colon, .rparen, .rbracket, .rbrace], ts.head? = some (.symbol s)

theorem Delimited.cons (hs : s ∈ [Symbol.comma, .colon, .rparen, .rbracket, .rbrace])
    (ts : List Token) : Delimited (.symbol s :: ts) :=
  ⟨s, hs, rfl⟩

theorem Delimited.binding (h : Delimited ts) : binding ts.head? < 1 := by
  obtain ⟨s, hs, hhead⟩ := h
  simp only [List.mem_cons, List.not_mem_nil, or_false] at hs
  rw [hhead]
  rcases hs with rfl | rfl | rfl | rfl | rfl <;> decide

theorem Delimited.ne_for (h : Delimited ts) : ts.head? ≠ some (.symbol .for) := by
  obtain ⟨s, hs, hhead⟩ := h
  rw [hhead]
  rintro heq
  cases heq
  exact absurd hs (by decide)

theorem Delimited.commaBefore {items : List α} (hnil : items = [] → ts = []) (hus : Delimited us) :
    Delimited (commaBefore items ++ (ts ++ us)) := by
  cases items with
  | nil =>
    rw [hnil rfl]
    exact hus
  | cons item items => exact Delimited.cons (by decide) _

/-! ## Targets -/

theorem rereads_targetName (n : String) : Rereads (.target (.name n)) [.name n] :=
  ⟨.name n, by rw [TargetForm.tokens], by rw [TargetForm.target]⟩

theorem rereads_targetTuple {ts : List Target} (ht : Rereads (.target t) us)
    (hts : Rereads (.targets ts) vs) :
    Rereads (.target (.tuple (t :: ts)))
      (.symbol .lparen :: (us ++ (commaBefore ts ++ vs) ++ loneComma (t :: ts)) ++
        [.symbol .rparen]) := by
  obtain ⟨form, rfl, rfl⟩ := ht
  cases ts with
  | nil =>
    refine ⟨.parens (.last form true), ?_, ?_⟩
    · simp [TargetForm.tokens, TargetForms.tokens, hts.1 rfl, commaBefore, loneComma]
    · simp [TargetForm.target, TargetForms.whole]
  | cons t ts =>
    obtain ⟨items, htokens, htargets⟩ := hts.2 form
    refine ⟨.parens items, ?_, ?_⟩
    · simp [TargetForm.tokens, htokens, loneComma]
    · rw [TargetForm.target, TargetForms.whole_of_many htargets]

theorem rereads_targetsNil : Rereads (.targets []) [] := by
  refine ⟨fun _ => rfl, fun form => ⟨.last form false, ?_, ?_⟩⟩
  · simp [TargetForms.tokens, commaBefore]
  · simp [TargetForms.targets]

theorem rereads_targetsCons {ts : List Target} (ht : Rereads (.target t) us)
    (hts : Rereads (.targets ts) vs) :
    Rereads (.targets (t :: ts)) (us ++ (commaBefore ts ++ vs)) := by
  obtain ⟨form, rfl, rfl⟩ := ht
  obtain ⟨items, htokens, htargets⟩ := hts.2 form
  refine ⟨(nomatch ·), fun first => ⟨.cons first items, ?_, ?_⟩⟩
  · simp [TargetForms.tokens, htokens, commaBefore]
  · simp [TargetForms.targets, htargets]

/-! ## Atoms -/

/-- The expression that a token is by itself. -/
def Token.alone? : Token → Option Expr
  | .name n => some (.name n)
  | .int i => some (.constant (.int i))
  | .float x => some (.constant (.float x))
  | .symbol .none => some (.constant .none)
  | .symbol .true => some (.constant (.bool true))
  | .symbol .false => some (.constant (.bool false))
  | _ => none

theorem rereads_alone {t : Token} (h : t.alone? = some e) : Operand e [t] := by
  unfold Token.alone? at h
  split at h <;> cases h <;>
  · refine Operand.ofToken rfl fun d us _ => ?_
    rw [atom]
    exact Leaves.peek (Leaves.skip (Leaves.pure _ us))

theorem rereads_str (text : String) : Operand (.str text) [.str text] := by
  refine Operand.ofToken rfl fun d us hquiet => ?_
  have hstrings : Leaves (adjacentStrings d text) us text us := by
    cases d with
    | zero => exact Leaves.pure text us
    | succ d =>
      rw [adjacentStrings]
      refine Leaves.peek ?_
      split
      · next heq =>
        rw [heq] at hquiet
        exact absurd hquiet (Nat.lt_irrefl 10)
      · exact Leaves.pure text us
  rw [atom]
  exact Leaves.peek (Leaves.skip hstrings.map)

/-! ## Brackets -/

theorem rereads_emptyTuple :
    Operand (.tuple []) [.symbol .lparen, .symbol .rparen] := by
  refine Operand.ofParens [.symbol .rparen] fun d us hd => ?_
  obtain ⟨k, rfl⟩ : ∃ k, d = k + 1 := ⟨d - 1, by simp at hd; omega⟩
  rw [parenthesized]
  exact Leaves.eatNext (Leaves.pure _ us)

theorem rereads_tuple (he : Item e us) (hes : Rereads (.items es) vs) :
    Operand (.tuple (e :: es))
      (.symbol .lparen :: (us ++ (commaBefore es ++ vs) ++ loneComma (e :: es)) ++
        [.symbol .rparen]) := by
  refine Operand.ofParens
    (us ++ (commaBefore es ++ vs) ++ loneComma (e :: es) ++ [.symbol .rparen])
    fun d ws hd => ?_
  have hpos := he.length_pos
  have hcommas := commas_tuple e (.symbol .rparen :: ws) hes.1
  simp only [List.length_append, List.length_cons, List.length_nil] at hd
  obtain ⟨k, rfl⟩ : ∃ k, d = k + 1 := ⟨d - 1, by omega⟩
  simp only [List.append_assoc, List.cons_append, List.nil_append, hcommas]
  rw [parenthesized]
  have hnext : Delimited (.symbol .comma :: (vs ++ .symbol .rparen :: ws)) :=
    Delimited.cons (by decide) _
  refine Leaves.eatOther (he.head?_ne _ (by decide)) ((he.test hnext.binding (by omega)).bind ?_)
  refine Leaves.checkOther hnext.ne_for (Leaves.eatOther (by simp) ?_)
  exact (hes.2 k ws .rparen (by decide) (by omega)).bind (Leaves.expect (Leaves.pure _ ws))

theorem rereads_emptyList : Operand (.list []) [.symbol .lbracket, .symbol .rbracket] := by
  refine Operand.ofBrackets [.symbol .rbracket] fun d us hd => ?_
  obtain ⟨k, rfl⟩ : ∃ k, d = k + 1 := ⟨d - 1, by simp at hd; omega⟩
  rw [bracketed]
  exact Leaves.eatNext (Leaves.pure _ us)

theorem leaves_noItems (hd : 0 < d) (hs : s ∈ closing) (us : List Token) :
    Leaves (moreItems d) (.symbol s :: us) [] (.symbol s :: us) := by
  obtain ⟨k, rfl⟩ : ∃ k, d = k + 1 := ⟨d - 1, by omega⟩
  rw [moreItems]
  refine Leaves.eatOther (fun heq => ?_) (Leaves.pure [] _)
  cases heq
  exact absurd hs (by decide)

theorem rereads_list (he : Item e us) (hes : Rereads (.items es) vs) :
    Operand (.list (e :: es))
      (.symbol .lbracket :: (us ++ (commaBefore es ++ vs)) ++ [.symbol .rbracket]) := by
  refine Operand.ofBrackets (us ++ (commaBefore es ++ vs) ++ [.symbol .rbracket])
    fun d ws hd => ?_
  have hpos := he.length_pos
  simp only [List.length_append, List.length_cons, List.length_nil] at hd
  obtain ⟨k, rfl⟩ : ∃ k, d = k + 1 := ⟨d - 1, by omega⟩
  have hnext : Delimited (commaBefore es ++ (vs ++ .symbol .rbracket :: ws)) :=
    Delimited.commaBefore hes.1 (Delimited.cons (by decide) ws)
  have hmore := leaves_further hes.1 (leaves_noItems (by omega) (by decide) ws)
    (hes.2 k ws .rbracket (by decide) (by omega))
  simp only [List.append_assoc, List.cons_append, List.nil_append]
  rw [bracketed]
  refine Leaves.eatOther (he.head?_ne _ (by decide)) ((he.test hnext.binding (by omega)).bind ?_)
  exact Leaves.checkOther hnext.ne_for (hmore.bind (Leaves.expect (Leaves.pure _ ws)))

theorem rereads_emptyDict : Operand (.dict []) [.symbol .lbrace, .symbol .rbrace] := by
  refine Operand.ofBraces [.symbol .rbrace] fun d us start hd => ?_
  obtain ⟨k, rfl⟩ : ∃ k, d = k + 1 := ⟨d - 1, by simp at hd; omega⟩
  rw [braced]
  exact Leaves.eatNext (Leaves.pure _ us)

theorem leaves_noEntries (hd : 0 < d) (us : List Token) :
    Leaves (moreEntries d) (.symbol .rbrace :: us) [] (.symbol .rbrace :: us) := by
  obtain ⟨k, rfl⟩ : ∃ k, d = k + 1 := ⟨d - 1, by omega⟩
  rw [moreEntries]
  exact Leaves.eatOther (by simp) (Leaves.pure [] _)

theorem rereads_dict {es : List (Expr × Expr)} (hk : Item k us) (he : Item e vs)
    (hes : Rereads (.entries es) ws) :
    Rereads (.expr (.dict ((k, e) :: es)))
      (.symbol .lbrace :: (us ++ .symbol .colon :: (vs ++ (commaBefore es ++ ws))) ++
        [.symbol .rbrace]) := by
  refine Operand.ofBraces
    (us ++ .symbol .colon :: (vs ++ (commaBefore es ++ ws)) ++ [.symbol .rbrace])
    fun d xs start hd => ?_
  simp only [List.length_append, List.length_cons, List.length_nil] at hd
  obtain ⟨n, rfl⟩ : ∃ n, d = n + 1 := ⟨d - 1, by omega⟩
  have hcolon : Delimited (.symbol .colon :: (vs ++ (commaBefore es ++ (ws ++ .symbol .rbrace :: xs)))) :=
    Delimited.cons (by decide) _
  have hnext : Delimited (commaBefore es ++ (ws ++ .symbol .rbrace :: xs)) :=
    Delimited.commaBefore hes.1 (Delimited.cons (by decide) xs)
  have hmore := leaves_further hes.1 (leaves_noEntries (by omega) xs) (hes.2 n xs (by omega))
  simp only [List.append_assoc, List.cons_append, List.nil_append]
  rw [braced]
  refine Leaves.eatOther (hk.head?_ne _ (by decide)) ((hk.test hcolon.binding (by omega)).bind ?_)
  refine Leaves.eatNext ((he.test hnext.binding (by omega)).bind ?_)
  exact Leaves.checkOther hnext.ne_for (hmore.bind (Leaves.expect (Leaves.pure _ xs)))

/-! ## Comprehensions -/

theorem rereads_generator (he : Operand e us) (hcs : Rereads (.clauses cs) vs)
    (hne : cs ≠ []) :
    Operand (.generator e cs)
      (.symbol .lparen :: (us ++ vs) ++ [.symbol .rparen]) := by
  refine Operand.ofParens (us ++ vs ++ [.symbol .rparen]) fun d ws hd => ?_
  obtain ⟨rest, rfl⟩ := hcs.2.1 hne
  simp only [List.length_append, List.length_cons, List.length_nil] at hd
  obtain ⟨k, rfl⟩ : ∃ k, d = k + 1 := ⟨d - 1, by omega⟩
  have hclauses := hcs.2.2 k ws .rparen (by decide) (by simp only [List.length_cons]; omega)
  simp only [List.append_assoc, List.cons_append, List.nil_append] at hclauses ⊢
  rw [parenthesized]
  refine Leaves.eatOther (he.head?_ne _ (by decide)) ((he.testBefore rfl (by omega)).bind ?_)
  exact Leaves.checkNext (hclauses.bind (Leaves.expect (Leaves.pure _ ws)))

theorem rereads_listComp (he : Operand e us) (hcs : Rereads (.clauses cs) vs)
    (hne : cs ≠ []) :
    Operand (.listComp e cs)
      (.symbol .lbracket :: (us ++ vs) ++ [.symbol .rbracket]) := by
  refine Operand.ofBrackets (us ++ vs ++ [.symbol .rbracket]) fun d ws hd => ?_
  obtain ⟨rest, rfl⟩ := hcs.2.1 hne
  simp only [List.length_append, List.length_cons, List.length_nil] at hd
  obtain ⟨k, rfl⟩ : ∃ k, d = k + 1 := ⟨d - 1, by omega⟩
  have hclauses := hcs.2.2 k ws .rbracket (by decide) (by simp only [List.length_cons]; omega)
  simp only [List.append_assoc, List.cons_append, List.nil_append] at hclauses ⊢
  rw [bracketed]
  refine Leaves.eatOther (he.head?_ne _ (by decide)) ((he.testBefore rfl (by omega)).bind ?_)
  exact Leaves.checkNext (hclauses.bind (Leaves.expect (Leaves.pure _ ws)))

theorem rereads_dictComp (hk : Operand k us) (he : Operand e vs)
    (hcs : Rereads (.clauses cs) ws) (hne : cs ≠ []) :
    Operand (.dictComp k e cs)
      (.symbol .lbrace :: (us ++ .symbol .colon :: (vs ++ ws)) ++ [.symbol .rbrace]) := by
  refine Operand.ofBraces (us ++ .symbol .colon :: (vs ++ ws) ++ [.symbol .rbrace])
    fun d xs start hd => ?_
  obtain ⟨rest, rfl⟩ := hcs.2.1 hne
  simp only [List.length_append, List.length_cons, List.length_nil] at hd
  obtain ⟨n, rfl⟩ : ∃ n, d = n + 1 := ⟨d - 1, by omega⟩
  have hclauses := hcs.2.2 n xs .rbrace (by decide) (by simp only [List.length_cons]; omega)
  simp only [List.append_assoc, List.cons_append, List.nil_append] at hclauses ⊢
  rw [braced]
  refine Leaves.eatOther (hk.head?_ne _ (by decide)) ((hk.testBefore rfl (by omega)).bind ?_)
  refine Leaves.eatNext ((he.testBefore rfl (by omega)).bind ?_)
  exact Leaves.checkNext (hclauses.bind (Leaves.expect (Leaves.pure _ xs)))

theorem rereads_clausesNil : Rereads (.clauses []) [] := by
  refine ⟨fun _ => rfl, fun h => absurd rfl h, fun d us s hs hd => ?_⟩
  obtain ⟨k, rfl⟩ : ∃ k, d = k + 1 := ⟨d - 1, by omega⟩
  rw [forClauses]
  refine Leaves.eatOther (fun heq => ?_) (Leaves.pure [] _)
  cases heq
  exact absurd hs (by decide)

/-- What follows the conditions of a clause: another clause or a closing bracket. -/
theorem rereads_clauses_binding (h : Rereads (.clauses cs) ts) (hs : s ∈ closing)
    (us : List Token) : binding (ts ++ .symbol s :: us).head? < 1 := by
  by_cases hcs : cs = []
  · rw [h.1 hcs, List.nil_append, binding_cons]
    simp only [closing, List.mem_cons, List.not_mem_nil, or_false] at hs
    rcases hs with rfl | rfl | rfl <;> decide
  · obtain ⟨rest, rfl⟩ := h.2.1 hcs
    rw [List.cons_append, binding_cons]
    decide

/-- A clause with a target in any form. -/
theorem rereads_clause {conds : List Expr} {xs : List Token} (items : TargetForms)
    (he : Operand e vs) (hconds : Rereads (.conditions conds) ws)
    (hcs : Rereads (.clauses cs) xs) :
    Rereads (.clauses (⟨items.whole Target.toTuple id, e, conds⟩ :: cs))
      (.symbol .for :: (items.tokens ++ .symbol .in :: (vs ++ (ws ++ xs)))) := by
  refine ⟨(nomatch ·), fun _ => ⟨_, rfl⟩, fun d ys s hs hd => ?_⟩
  simp only [List.length_append, List.length_cons] at hd
  obtain ⟨k, rfl⟩ : ∃ k, d = k + 1 := ⟨d - 1, by omega⟩
  have hend := rereads_clauses_binding hcs hs ys
  have hclauses := hcs.2.2 k ys s hs (by omega)
  have hconditions := hconds.2 k _ (by omega) hend
  have hiter := he.or (hconds.1 _ (Nat.lt_trans hend Nat.one_lt_two)) k (by omega)
  simp only [List.append_assoc, List.cons_append]
  rw [forClauses]
  refine Leaves.eatNext ((leaves_targetList items (by decide) (by omega)).bind ?_)
  exact Leaves.expect (hiter.bind (hconditions.bind hclauses.map))

theorem rereads_clausesCons {conds : List Expr} {xs : List Token} (ht : Rereads (.target t) us)
    (he : Operand e vs) (hconds : Rereads (.conditions conds) ws)
    (hcs : Rereads (.clauses cs) xs) :
    Rereads (.clauses (⟨t, e, conds⟩ :: cs))
      (.symbol .for :: (us ++ .symbol .in :: (vs ++ (ws ++ xs)))) := by
  obtain ⟨form, rfl, rfl⟩ := ht
  simpa [TargetForms.tokens, TargetForms.whole] using
    rereads_clause (.last form false) he hconds hcs

theorem rereads_conditionsNil : Rereads (.conditions []) [] := by
  refine ⟨fun _ h => h, fun d us hd hquiet => ?_⟩
  obtain ⟨k, rfl⟩ : ∃ k, d = k + 1 := ⟨d - 1, by omega⟩
  rw [conditionList]
  exact Leaves.eatOther (head?_ne_of_binding (s := .if) hquiet) (Leaves.pure [] us)

theorem rereads_conditionsCons (he : Operand e us) (hes : Rereads (.conditions es) vs) :
    Rereads (.conditions (e :: es)) (.symbol .if :: (us ++ vs)) := by
  refine ⟨fun _ _ => by rw [List.cons_append, binding_cons]; decide, fun d ws hd hquiet => ?_⟩
  simp only [List.length_append, List.length_cons] at hd
  obtain ⟨k, rfl⟩ : ∃ k, d = k + 1 := ⟨d - 1, by omega⟩
  have hmore := hes.2 k ws (by omega) hquiet
  have hcondition := he.or (hes.1 ws (Nat.lt_trans hquiet Nat.one_lt_two)) k (by omega)
  simp only [List.append_assoc, List.cons_append]
  rw [conditionList]
  exact Leaves.eatNext (hcondition.bind hmore.map)

/-! ## Items, entries and arguments -/

theorem rereads_itemsNil : Rereads (.items []) [] := by
  refine ⟨fun _ => rfl, fun d us s hs hd => ?_⟩
  obtain ⟨k, rfl⟩ : ∃ k, d = k + 1 := ⟨d - 1, by omega⟩
  rw [moreItems]
  exact Leaves.eatNext (Leaves.atCloser hs (Leaves.pure [] _))

theorem Item.leaves_notAtCloser {β : Type} {b : β} {f : Bool → Parser β} (he : Item e ts)
    (h : Leaves (f false) (ts ++ us) b vs) : Leaves (atCloser >>= f) (ts ++ us) b vs := by
  obtain ⟨t, rest, rfl, -⟩ := he.starts
  refine Leaves.notAtCloser (fun s hs heq => he.head?_ne us (s := s) ?_ (congrArg some heq)) h
  simp only [List.mem_cons, List.not_mem_nil, or_false] at hs
  rcases hs with rfl | rfl | rfl <;> decide

theorem rereads_itemsCons (he : Item e us) (hes : Rereads (.items es) vs) :
    Rereads (.items (e :: es)) (us ++ (commaBefore es ++ vs)) := by
  refine ⟨(nomatch ·), fun d ws s hs hd => ?_⟩
  have hpos := he.length_pos
  simp only [List.length_append] at hd
  obtain ⟨k, rfl⟩ : ∃ k, d = k + 1 := ⟨d - 1, by omega⟩
  have hnext : Delimited (commaBefore es ++ (vs ++ .symbol s :: ws)) :=
    Delimited.commaBefore hes.1 (Delimited.cons ((by decide : closing ⊆ _) hs) ws)
  have hmore := leaves_further hes.1 (leaves_noItems (by omega) hs ws)
    (hes.2 k ws s hs (by omega))
  simp only [List.append_assoc]
  rw [moreItems]
  refine Leaves.eatNext (he.leaves_notAtCloser ?_)
  exact (he.test hnext.binding (by omega)).bind hmore.map

theorem rereads_entriesNil : Rereads (.entries []) [] := by
  refine ⟨fun _ => rfl, fun d us hd => ?_⟩
  obtain ⟨k, rfl⟩ : ∃ k, d = k + 1 := ⟨d - 1, by omega⟩
  rw [moreEntries]
  exact Leaves.eatNext (Leaves.atCloser (by decide) (Leaves.pure [] _))

theorem rereads_entriesCons {es : List (Expr × Expr)} (hk : Item k us) (he : Item e vs)
    (hes : Rereads (.entries es) ws) :
    Rereads (.entries ((k, e) :: es)) (us ++ .symbol .colon :: (vs ++ (commaBefore es ++ ws))) := by
  refine ⟨(nomatch ·), fun d xs hd => ?_⟩
  simp only [List.length_append, List.length_cons] at hd
  obtain ⟨n, rfl⟩ : ∃ n, d = n + 1 := ⟨d - 1, by omega⟩
  have hcolon : Delimited (.symbol .colon :: (vs ++ (commaBefore es ++ (ws ++ .symbol .rbrace :: xs)))) :=
    Delimited.cons (by decide) _
  have hnext : Delimited (commaBefore es ++ (ws ++ .symbol .rbrace :: xs)) :=
    Delimited.commaBefore hes.1 (Delimited.cons (by decide) xs)
  have hmore := leaves_further hes.1 (leaves_noEntries (by omega) xs) (hes.2 n xs (by omega))
  simp only [List.append_assoc, List.cons_append]
  rw [moreEntries]
  refine Leaves.eatNext (hk.leaves_notAtCloser ((hk.test hcolon.binding (by omega)).bind
    (Leaves.expect ?_)))
  exact (he.test hnext.binding (by omega)).bind hmore.map

/-- A value of an argument, up to the comma or parenthesis after it. -/
theorem Operand.leaves_value (he : Operand e ts)
    (hus : us.head? = some (.symbol .comma) ∨ us.head? = some (.symbol .rparen))
    (hd : 12 * ts.length + 9 ≤ d) : Leaves (Parser.test d) (ts ++ us) e us := by
  refine he.test ?_ hd
  rcases hus with h | h <;> rw [h] <;> decide

theorem rereads_positional (he : Operand e ts) :
    Rereads (.argument (.positional e)) ts := by
  intro d done used us b ws hd _ hus hrun
  have hvalue := he.leaves_value hus (d := d) (by omega)
  obtain ⟨t, rest, rfl, hopens⟩ := he.opens
  have hkey := he.noKeyword
  rw [arguments]
  refine Leaves.peek (Leaves.peekSecond ?_)
  split
  · next heq =>
    cases heq
    exact absurd hopens (by decide)
  · next heq =>
    cases heq
    exact absurd hopens (by decide)
  · next heq =>
    cases heq
    exact absurd hopens (by decide)
  · next name heq hassign =>
    -- the name is followed by a trailer, or by what follows the argument
    cases heq
    have hrest := hkey name rest rfl
    exfalso
    cases rest with
    | nil =>
      change us.head? = _ at hassign
      rcases hus with h | h <;> rw [h] at hassign <;> cases hassign
    | cons r rest => exact hrest hassign
  · have hfor : us.head? ≠ some (.symbol .for) := by
      rcases hus with h | h <;> rw [h] <;> simp
    refine hvalue.bind (Leaves.checkOther hfor ?_)
    rw [Bool.and_false, if_neg (by decide)]
    exact hrun

theorem rereads_keyword (n : String) (he : Operand e ts) :
    Rereads (.argument (.keyword n e)) (.name n :: .symbol .assign :: ts) := by
  intro d done used us b ws hd hfresh hus hrun
  simp only [List.length_cons] at hd
  have hused : ¬used.contains n = true := by simpa using hfresh n rfl
  rw [arguments]
  refine Leaves.peek (Leaves.peekSecond ?_)
  simp only [List.cons_append, List.head?_cons, List.drop_one, List.tail_cons, if_neg hused]
  exact Leaves.skip ((he.leaves_value hus (by omega)).bind hrun)

theorem rereads_unpack (he : Operand e ts) :
    Rereads (.argument (.unpack e)) (.symbol .star :: ts) ∧
      Rereads (.argument (.unpackKeywords e)) (.symbol .doubleStar :: ts) := by
  constructor
  all_goals
    intro d done used us b ws hd _ hus hrun
    simp only [List.length_cons] at hd
    rw [arguments]
    refine Leaves.peek (Leaves.peekSecond ?_)
    exact Leaves.skip ((he.leaves_value hus (by omega)).bind hrun)

theorem rereads_argumentsNil : Rereads (.arguments []) [] := by
  refine ⟨fun _ => rfl, fun d done used us hd _ => ?_⟩
  obtain ⟨k, rfl⟩ : ∃ k, d = k + 1 := ⟨d - 1, by omega⟩
  rw [arguments, List.append_nil]
  exact Leaves.peek (Leaves.peekSecond (Leaves.skip (Leaves.pure _ us)))

/-- The keyword of an argument is fresh for the ones before it and after it. -/
theorem nodup_keywords_cons {a : Argument} {used : List String}
    (h : ((a :: args).filterMap Argument.keyword? ++ used).Nodup) :
    (∀ n ∈ a.keyword?, n ∉ used) ∧
      (args.filterMap Argument.keyword? ++ (a.keyword?.toList ++ used)).Nodup := by
  cases hkey : a.keyword? with
  | none => simpa [List.filterMap_cons, hkey] using h
  | some n =>
    rw [List.filterMap_cons, hkey] at h
    have hn := (List.nodup_cons.mp h).1
    refine ⟨?_, List.perm_middle.symm.nodup h⟩
    rintro m hm
    cases hm
    exact fun hused => hn (List.mem_append_right _ hused)

theorem rereads_argumentsCons {a : Argument} (ha : Rereads (.argument a) us)
    (hargs : Rereads (.arguments args) vs) :
    Rereads (.arguments (a :: args)) (us ++ (commaBefore args ++ vs)) := by
  refine ⟨(nomatch ·), fun d done used ws hd hkeys => ?_⟩
  obtain ⟨hfresh, hmore⟩ := nodup_keywords_cons hkeys
  simp only [List.length_append] at hd
  obtain ⟨k, rfl⟩ : ∃ k, d = k + 2 := ⟨d - 2, by omega⟩
  rw [List.append_assoc, List.append_assoc]
  cases args with
  | nil =>
    rw [hargs.1 rfl]
    refine ha (k + 1) done used _ _ ws (by omega) hfresh (.inr rfl) ?_
    rw [nextArgument, ← List.reverse_cons]
    exact Leaves.eatOther (by simp [commaBefore]) (Leaves.expect (Leaves.pure _ ws))
  | cons a' args =>
    have hlen : (commaBefore (a' :: args)).length = 1 := rfl
    refine ha (k + 1) done used _ _ ws (by omega) hfresh (.inl rfl) ?_
    have hrest := hargs.2 k (a :: done) (a.keyword?.toList ++ used) ws (by omega) hmore
    rw [List.reverse_cons, List.append_assoc] at hrest
    rw [nextArgument]
    exact Leaves.eatNext hrest

/-! ## Trailers -/

theorem rereads_member (attr : String) (he : Operand e us) :
    Operand (.attribute e attr) (us ++ [.symbol .dot, .name attr]) := by
  refine he.trailer ⟨_, _, rfl, by simp, by decide⟩ fun d ws b xs _ _ hrun => ?_
  rw [trailers]
  exact Leaves.peek (Leaves.skip (Leaves.peek (Leaves.skip hrun)))

theorem rereads_subscripted {i : Expr} (he : Operand e us) (hi : Rereads (.index i) vs) :
    Operand (.subscript e i) (us ++ (.symbol .lbracket :: vs ++ [.symbol .rbracket])) := by
  refine he.trailer ⟨_, _, rfl, by simp, by decide⟩ fun d ws b xs hd _ hrun => ?_
  simp only [List.length_append, List.length_cons, List.length_nil] at hd
  simp only [List.append_assoc, List.cons_append, List.nil_append]
  rw [trailers]
  exact Leaves.peek (Leaves.skip ((hi d ws (by omega)).bind (Leaves.expect hrun)))

theorem rereads_call {f : Expr} (hf : Operand f us) (hargs : Rereads (.arguments args) vs)
    (hkeys : (args.filterMap Argument.keyword?).Nodup) :
    Operand (.call f args) (us ++ (.symbol .lparen :: vs ++ [.symbol .rparen])) := by
  refine hf.trailer ⟨_, _, rfl, by simp, by decide⟩ fun d ws b xs hd _ hrun => ?_
  simp only [List.length_append, List.length_cons, List.length_nil] at hd
  have hrest := hargs.2 d [] [] ws (by omega) (by simpa using hkeys)
  simp only [List.append_assoc, List.cons_append, List.nil_append]
  rw [trailers]
  exact Leaves.peek (Leaves.skip (hrest.bind hrun))

/-! ## Indices -/

theorem rereads_noBound : Rereads (.bound none) [] := by
  refine ⟨fun e h => (nomatch h), fun _ => rfl, fun d us s hs hd => ?_⟩
  obtain ⟨k, rfl⟩ : ∃ k, d = k + 1 := ⟨d - 1, by omega⟩
  rw [slicePart]
  refine Leaves.peek ?_
  simp only [List.mem_cons, List.not_mem_nil, or_false] at hs
  rcases hs with rfl | rfl | rfl <;> exact Leaves.pure none _

theorem rereads_someBound (he : Operand e ts) : Rereads (.bound (some e)) ts := by
  refine ⟨fun e' h => by cases h; exact he, (nomatch ·), fun d us s hs hd => ?_⟩
  obtain ⟨k, rfl⟩ : ∃ k, d = k + 1 := ⟨d - 1, by omega⟩
  have hnext := Delimited.cons ((by decide : [Symbol.colon, .comma, .rbracket] ⊆ _) hs) us
  have hvalue := he.test hnext.binding (d := k) (by omega)
  rw [slicePart]
  refine Leaves.peek ?_
  split
  · next heq => exact absurd heq (he.head?_ne _ (by decide))
  · next heq => exact absurd heq (he.head?_ne _ (by decide))
  · next heq => exact absurd heq (he.head?_ne _ (by decide))
  · exact hvalue.map

theorem Operand.exists_start (he : Operand e ts) :
    ∃ x rest, ts = x :: rest ∧ ∀ s ∈ closing, x ≠ .symbol s := by
  obtain ⟨t, rest, rfl, hopens⟩ := he.opens
  refine ⟨t, rest, rfl, ?_⟩
  rintro s hs rfl
  simp only [closing, List.mem_cons, List.not_mem_nil, or_false] at hs
  rcases hs with rfl | rfl | rfl <;> exact absurd hopens (by decide)

theorem rereads_subscriptExpr (he : Operand e ts) : Rereads (.subscript e) ts := by
  refine ⟨he.exists_start, fun d us s hs hd => ?_⟩
  obtain ⟨k, rfl⟩ : ∃ k, d = k + 1 := ⟨d - 1, by omega⟩
  have hnext : Delimited (.symbol s :: us) ∧ s ≠ .colon := by
    simp only [List.mem_cons, List.not_mem_nil, or_false] at hs
    rcases hs with rfl | rfl <;> exact ⟨Delimited.cons (by decide) us, by decide⟩
  rw [Parser.subscript]
  refine Leaves.checkOther (he.head?_ne _ (by decide)) ((he.test hnext.1.binding (by omega)).bind ?_)
  refine Leaves.checkOther (fun heq => ?_) (Leaves.pure e _)
  cases heq
  exact hnext.2 rfl

/-- The first bound of a slice is read up to its colon, and the rest of the slice after it. -/
theorem rereads_lower (hl : Rereads (.bound l) us)
    (hrest : ∀ d ws s, s ∈ [Symbol.comma, .rbracket] → 12 * vs.length + 20 ≤ d →
      Leaves (sliceAfter d l) (.symbol .colon :: (vs ++ .symbol s :: ws)) e (.symbol s :: ws)) :
    Rereads (.subscript e) (us ++ .symbol .colon :: vs) := by
  cases l with
  | none =>
    rw [hl.2.1 rfl]
    refine ⟨⟨_, _, rfl, by simp [closing]⟩, fun d ws s hs hd => ?_⟩
    simp only [List.length_cons, List.nil_append] at hd
    obtain ⟨k, rfl⟩ : ∃ k, d = k + 1 := ⟨d - 1, by omega⟩
    rw [Parser.subscript]
    exact Leaves.checkNext (hrest k ws s hs (by omega))
  | some lower =>
    have hlower := hl.1 lower rfl
    refine ⟨?_, fun d ws s hs hd => ?_⟩
    · obtain ⟨t, rest, rfl, ht⟩ := hlower.exists_start
      exact ⟨t, rest ++ .symbol .colon :: vs, rfl, ht⟩
    · simp only [List.length_append, List.length_cons] at hd
      obtain ⟨k, rfl⟩ : ∃ k, d = k + 1 := ⟨d - 1, by omega⟩
      simp only [List.append_assoc, List.cons_append]
      rw [Parser.subscript]
      refine Leaves.checkOther (hlower.head?_ne _ (by decide))
        ((hlower.testBefore rfl (by omega)).bind ?_)
      exact Leaves.checkNext (hrest k ws s hs (by omega))

theorem rereads_slice (hl : Rereads (.bound l) us) (hu : Rereads (.bound u) vs) :
    Rereads (.subscript (.slice l u none)) (us ++ .symbol .colon :: vs) := by
  refine rereads_lower hl fun d ws s hs hd => ?_
  obtain ⟨k, rfl⟩ : ∃ k, d = k + 1 := ⟨d - 1, by omega⟩
  have hupper := hu.2.2 k ws s (List.mem_cons_of_mem _ hs) (by omega)
  rw [sliceAfter]
  refine Leaves.expect (hupper.bind (Leaves.eatOther (fun heq => ?_) (Leaves.pure _ _)))
  cases heq
  exact absurd hs (by decide)

theorem rereads_sliceStep {step : Expr} (hl : Rereads (.bound l) us) (hu : Rereads (.bound u) vs)
    (hstep : Operand step ws) :
    Rereads (.subscript (.slice l u (some step)))
      (us ++ .symbol .colon :: (vs ++ .symbol .colon :: ws)) := by
  refine rereads_lower hl fun d xs s hs hd => ?_
  simp only [List.length_append, List.length_cons] at hd
  obtain ⟨k, rfl⟩ : ∃ k, d = k + 1 := ⟨d - 1, by omega⟩
  have hupper := hu.2.2 k (ws ++ .symbol s :: xs) .colon (by decide) (by omega)
  have hlast := (rereads_someBound hstep).2.2 k xs s (List.mem_cons_of_mem _ hs) (by omega)
  simp only [List.append_assoc, List.cons_append]
  rw [sliceAfter]
  exact Leaves.expect (hupper.bind (Leaves.eatNext hlast.map))

theorem leaves_noSubscripts (hd : 0 < d) (us : List Token) :
    Leaves (moreSubscripts d) (.symbol .rbracket :: us) [] (.symbol .rbracket :: us) := by
  obtain ⟨k, rfl⟩ : ∃ k, d = k + 1 := ⟨d - 1, by omega⟩
  rw [moreSubscripts]
  exact Leaves.eatOther (by simp) (Leaves.pure [] _)

theorem rereads_subscriptsNil : Rereads (.subscripts []) [] := by
  refine ⟨fun _ => rfl, fun d us hd => ?_⟩
  obtain ⟨k, rfl⟩ : ∃ k, d = k + 1 := ⟨d - 1, by omega⟩
  rw [moreSubscripts]
  exact Leaves.eatNext (Leaves.atCloser (by decide) (Leaves.pure [] _))

/-- An index is followed by a comma or the closing bracket. -/
theorem head?_commaBefore (hnil : es = [] → ts = []) (us : List Token) :
    ∃ s ∈ [Symbol.comma, .rbracket], ∃ rest,
      commaBefore es ++ (ts ++ .symbol .rbracket :: us) = .symbol s :: rest := by
  cases es with
  | nil =>
    rw [hnil rfl]
    exact ⟨.rbracket, by decide, us, rfl⟩
  | cons e es => exact ⟨.comma, by decide, _, rfl⟩

theorem rereads_subscriptsCons (he : Rereads (.subscript e) us)
    (hes : Rereads (.subscripts es) vs) :
    Rereads (.subscripts (e :: es)) (us ++ (commaBefore es ++ vs)) := by
  refine ⟨(nomatch ·), fun d ws hd => ?_⟩
  obtain ⟨⟨x, rest, rfl, hx⟩, hrun⟩ := he
  simp only [List.length_append, List.length_cons] at hd hrun
  obtain ⟨k, rfl⟩ : ∃ k, d = k + 1 := ⟨d - 1, by omega⟩
  have hmore := leaves_further hes.1 (leaves_noSubscripts (by omega) ws) (hes.2 k ws (by omega))
  obtain ⟨s, hs, tail, htail⟩ := head?_commaBefore hes.1 ws
  simp only [List.append_assoc]
  rw [htail] at hmore ⊢
  rw [moreSubscripts]
  refine Leaves.eatNext (Leaves.notAtCloser hx ?_)
  exact (hrun k tail s hs (by omega)).bind hmore.map

theorem rereads_indexOne (he : Rereads (.subscript e) ts) : Rereads (.index e) ts := by
  intro d us hd
  obtain ⟨k, rfl⟩ : ∃ k, d = k + 1 := ⟨d - 1, by omega⟩
  rw [subscripts]
  refine (he.2 k us .rbracket (by decide) (by omega)).bind ?_
  exact Leaves.checkOther (by simp) (Leaves.pure e _)

theorem rereads_indexTuple (he : Rereads (.subscript e) us) (hes : Rereads (.subscripts es) vs) :
    Rereads (.index (.tuple (e :: es)))
      (us ++ (commaBefore es ++ vs) ++ loneComma (e :: es)) := by
  intro d ws hd
  obtain ⟨⟨x, rest, rfl, -⟩, hrun⟩ := he
  have hcommas := commas_tuple e (.symbol .rbracket :: ws) hes.1
  simp only [List.length_append, List.length_cons] at hd hrun
  obtain ⟨k, rfl⟩ : ∃ k, d = k + 1 := ⟨d - 1, by omega⟩
  simp only [List.append_assoc, hcommas]
  rw [subscripts]
  refine (hrun k _ .comma (by decide) (by omega)).bind (Leaves.checkNext ?_)
  exact (hes.2 k ws (by omega)).map

/-! ## Operations -/

theorem rereads_linksNil : Rereads (.links []) [] := by
  refine ⟨fun _ h => h, fun d us hd hquiet => ?_⟩
  obtain ⟨k, rfl⟩ : ∃ k, d = k + 1 := ⟨d - 1, by omega⟩
  rw [comparisons]
  refine Leaves.peek (Leaves.peekSecond ?_)
  rw [List.nil_append, comparison?_eq_none hquiet]
  exact Leaves.pure [] us

/-- The tokens of a comparison are recognized before an operand, which does not begin with the `not`
that would join them. -/
theorem comparison?_symbols (op : CompareOp) (hts : ts.head? ≠ some (.symbol .not)) :
    comparison? (op.symbols.map Token.symbol ++ ts).head?
      ((op.symbols.map Token.symbol ++ ts).drop 1).head? = some (op, op.symbols.length) := by
  cases op with
  | is =>
    change comparison? (some (.symbol .is)) ts.head? = some (.is, 1)
    unfold comparison?
    split <;> simp_all
  | eq | ne | lt | le | gt | ge | mem | notMem | isNot => rfl

theorem rereads_linksCons {cs : List (CompareOp × Expr)} (op : CompareOp)
    (he : Operand e us) (hcs : Rereads (.links cs) vs) :
    Rereads (.links ((op, e) :: cs)) (op.symbols.map .symbol ++ (us ++ vs)) := by
  refine ⟨fun ws _ => by cases op <;> exact Nat.lt_succ_self 4, fun d ws hd hquiet => ?_⟩
  simp only [List.length_append, List.length_map] at hd
  have hpos : 0 < op.symbols.length := by cases op <;> decide
  obtain ⟨k, rfl⟩ : ∃ k, d = k + 1 := ⟨d - 1, by omega⟩
  have hop := comparison?_symbols op (he.head?_ne (vs ++ ws) (s := .not) (by decide))
  have hright := he.sum (hcs.1 ws (by omega)) k (by omega)
  have hmore := hcs.2 k ws (by omega) hquiet
  simp only [List.append_assoc]
  rw [comparisons]
  refine Leaves.peek (Leaves.peekSecond ?_)
  rw [hop]
  refine Leaves.skip ?_
  rw [← List.length_map (f := Token.symbol), List.drop_left]
  exact hright.bind hmore.map

/-- The tokens of an operation whose first operand is known. -/
theorem Operand.ofInfix (ha : Operand a us) (h : ∀ d ws, 12 * (us.length + vs.length) + 11 ≤ d →
      Leaves (Parser.test d) (us ++ (vs ++ .symbol .rparen :: ws)) e (.symbol .rparen :: ws)) :
    Operand e (.symbol .lparen :: (us ++ vs) ++ [.symbol .rparen]) := by
  obtain ⟨t, rest, rfl, hopens⟩ := ha.opens
  refine Operand.ofOperation rfl ?_ fun d ws hd => ?_
  · rintro rfl
    exact absurd hopens (by decide)
  · rw [List.append_assoc]
    rw [List.length_append] at hd
    exact h d ws hd

section

variable {a b : Expr} {us vs ws : List Token} {op : Expr → Expr → Expr}

/-- Two operands with an operator between them, where operands are read at the level below its own. -/
theorem Operand.join (here next : Level) {n : Nat} (ha : Operand a us) (hb : Operand b vs)
    (hlevels : (here, next) ∈ ReadsAt.joinedLevels) (hn : 0 < n) (hs : s.binding < next.rank)
    (hnext : ∀ {e : Expr} {ts ws : List Token}, Operand e ts → binding ws.head? < next.rank →
      ReadsAt next (12 * ts.length + n) (ts ++ ws) e ws)
    (hop : joiner? here (some (.symbol s)) = some op) (hquiet : binding ws.head? < 1) :
    ReadsAt here (12 * (us.length + vs.length) + n + 2) (us ++ .symbol s :: (vs ++ ws)) (op a b) ws := by
  have hrank : 1 < here.rank ∧ 1 < next.rank := by cases here <;> cases next <;> decide
  have hsymbol : binding (Token.symbol s :: (vs ++ ws)).head? < next.rank := hs
  have hleft : ReadsAt next (12 * (us.length + vs.length) + n) _ a _ :=
    (hnext ha hsymbol).mono (by omega)
  have hright : ReadsAt next (12 * (us.length + vs.length) + n) _ b ws :=
    (hnext hb (hquiet.trans hrank.2)).mono (by omega)
  exact ReadsAt.join hlevels hop hleft hright (by omega) (hquiet.trans hrank.1)

theorem Operand.joinPower (ha : Operand a us) (hb : Operand b vs) (hquiet : binding ws.head? < 1) :
    ReadsAt .sum (12 * (us.length + vs.length) + 7)
      (us ++ .symbol .doubleStar :: (vs ++ ws)) (.binary .pow a b) ws := by
  have hright : ReadsAt .sign _ (vs ++ ws) b ws := hb.sign (by omega)
  have hpower : ReadsAt .power (12 * (us.length + vs.length) + 4)
      (us ++ .symbol .doubleStar :: (vs ++ ws)) (.binary .pow a b) ws := by
    refine ReadsAt.of_step fun d hd => ?_
    have hbase : Leaves (Parser.primary d) (us ++ .symbol .doubleStar :: (vs ++ ws)) a
        (.symbol .doubleStar :: (vs ++ ws)) :=
      ha.leaves_primary (by omega) (by rw [binding_cons]; decide)
    rw [level, ← bind_assoc]
    exact hbase.bind (Leaves.eatNext (hright d (by omega)).map)
  have hsign := hpower.sign (ha.head?_append _)
  have hproduct : ReadsAt .product _ _ _ ws :=
    hsign.operand (by decide) (by omega) (Nat.lt_trans hquiet (by decide))
  exact hproduct.operand (by decide) (by omega) (Nat.lt_trans hquiet (by decide))

end

theorem rereads_binary (op : BinaryOp) (ha : Operand a us) (hb : Operand b vs) :
    Operand (.binary op a b)
      (.symbol .lparen :: (us ++ .symbol op.symbol :: vs) ++ [.symbol .rparen]) := by
  refine ha.ofInfix fun d ws hd => ?_
  rw [List.length_cons] at hd
  have hsum : ReadsAt .sum (12 * (us.length + vs.length) + 7)
      (us ++ .symbol op.symbol :: (vs ++ .symbol .rparen :: ws)) (.binary op a b)
      (.symbol .rparen :: ws) := by
    have hend : binding (Token.symbol .rparen :: ws).head? < 1 := Nat.zero_lt_one
    cases op with
    | add | sub =>
      exact (ha.join .sum .product hb (by decide) (by decide) (by decide) Operand.product rfl hend).mono
        (by omega)
    | mul | div | floorDiv | mod =>
      exact ((ha.join .product .sign hb (by decide) (by decide) (by decide) Operand.sign rfl
        hend).operand (by decide) (by omega) (Nat.lt_trans hend (by decide))).mono (by omega)
    | pow => exact ha.joinPower hb hend
  exact hsum.test_of_sum (by omega) (ha.head?_ne _ (by decide)) (ha.head?_ne _ (by decide))
    Nat.zero_lt_one d (by omega)

theorem rereads_unary (op : UnaryOp) (ha : Operand a us) :
    Operand (.unary op a)
      (.symbol .lparen :: (.symbol op.symbol :: us) ++ [.symbol .rparen]) := by
  refine Operand.ofOperation rfl (by cases op <;> simp [UnaryOp.symbol]) fun d ws hd => ?_
  rw [List.length_cons] at hd
  have hend : binding (Token.symbol .rparen :: ws).head? < 1 := Nat.zero_lt_one
  cases op with
  | neg => exact (ha.signed (by decide)).test hend (by rw [List.length_cons]; omega)
  | pos => exact (ha.signed (by decide)).test hend (by rw [List.length_cons]; omega)
  | not =>
    have hnot : ReadsAt .not (12 * us.length + 7)
        (.symbol .not :: (us ++ .symbol .rparen :: ws)) (.unary .not a) (.symbol .rparen :: ws) := by
      refine ReadsAt.of_step fun d hd => ?_
      rw [level]
      exact Leaves.eatNext (ha.not (by omega) d hd).map
    exact (hnot.or (by omega) (by omega)).test (by simp) hend d (by omega)

theorem rereads_logic (op : BoolOp) (ha : Operand a us) (hb : Operand b vs) :
    Operand (.logic op a b)
      (.symbol .lparen :: (us ++ .symbol op.symbol :: vs) ++ [.symbol .rparen]) := by
  refine ha.ofInfix fun d ws hd => ?_
  rw [List.length_cons] at hd
  have hend : binding (Token.symbol .rparen :: ws).head? < 1 := Nat.zero_lt_one
  have hor : ReadsAt .or (12 * (us.length + vs.length) + 10)
      (us ++ .symbol op.symbol :: (vs ++ .symbol .rparen :: ws)) (.logic op a b)
      (.symbol .rparen :: ws) := by
    cases op with
    | and =>
      exact ((ha.join .and .not hb (by decide) (by decide) (by decide) Operand.not rfl
        hend).operand (by decide) (by omega) (Nat.lt_trans hend (by decide))).mono (by omega)
    | or =>
      exact (ha.join .or .and hb (by decide) (by decide) (by decide) Operand.and rfl hend).mono
        (by omega)
  exact hor.test (ha.head?_ne _ (by decide)) hend d (by omega)

theorem rereads_compare {cs : List (CompareOp × Expr)} (ha : Operand a us)
    (hcs : Rereads (.links cs) vs) (hne : cs ≠ []) :
    Operand (.compare a cs) (.symbol .lparen :: (us ++ vs) ++ [.symbol .rparen]) := by
  refine ha.ofInfix fun d ws hd => ?_
  have hend : binding (Token.symbol .rparen :: ws).head? < 1 := Nat.zero_lt_one
  have hcomparison : ReadsAt .comparison (12 * (us.length + vs.length) + 7)
      (us ++ (vs ++ .symbol .rparen :: ws)) (.compare a cs) (.symbol .rparen :: ws) := by
    refine ReadsAt.of_step fun d hd => ?_
    have hleft := ha.sum (hcs.1 (.symbol .rparen :: ws) (by omega)) d (by omega)
    have hlinks := hcs.2 d (.symbol .rparen :: ws) (by omega) (by omega)
    rw [level]
    refine hleft.bind (hlinks.bind ?_)
    cases cs with
    | nil => exact absurd rfl hne
    | cons c cs => exact Leaves.pure _ _
  have hor := (hcomparison.not (ha.head?_ne _ (by decide))).or (by omega) (by omega)
  exact hor.test (ha.head?_ne _ (by decide)) hend d (by omega)

theorem rereads_conditional {t : Expr} (ha : Operand a us) (ht : Operand t vs)
    (hb : Operand b ws) :
    Operand (.conditional t a b)
      (.symbol .lparen :: (us ++ .symbol .if :: (vs ++ .symbol .else :: ws)) ++
        [.symbol .rparen]) := by
  refine ha.ofInfix fun d xs hd => ?_
  simp only [List.length_append, List.length_cons] at hd
  obtain ⟨k, rfl⟩ : ∃ k, d = k + 1 := ⟨d - 1, by omega⟩
  simp only [List.append_assoc, List.cons_append]
  have hbody : Leaves (level k .or)
      (us ++ .symbol .if :: (vs ++ .symbol .else :: (ws ++ .symbol .rparen :: xs))) a _ :=
    ha.or (by rw [binding_cons]; decide) k (by omega)
  have htest : Leaves (level k .or) (vs ++ .symbol .else :: (ws ++ .symbol .rparen :: xs)) t _ :=
    ht.or (by rw [binding_cons]; decide) k (by omega)
  rw [Parser.test]
  refine Leaves.checkOther (ha.head?_ne _ (by decide)) (hbody.bind (Leaves.eatNext ?_))
  exact htest.bind (Leaves.expect (hb.testBefore rfl (by omega)).map)

/-! ## The round trip -/

/-- The first of several parts and the others are read back on their own. -/
def RereadsSplit : Part → List Token → Prop
  | .targets (t :: targets), ts => ∃ us vs, ts = us ++ (commaBefore targets ++ vs) ∧
      Rereads (.target t) us ∧ Rereads (.targets targets) vs
  | .items (e :: es), ts => ∃ us vs, ts = us ++ (commaBefore es ++ vs) ∧
      Rereads (.expr e) us ∧ Rereads (.items es) vs
  | .entries ((k, e) :: es), ts => ∃ us vs ws,
      ts = us ++ .symbol .colon :: (vs ++ (commaBefore es ++ ws)) ∧
      Rereads (.expr k) us ∧ Rereads (.expr e) vs ∧ Rereads (.entries es) ws
  | .subscripts (e :: es), ts => ∃ us vs, ts = us ++ (commaBefore es ++ vs) ∧
      Rereads (.subscript e) us ∧ Rereads (.subscripts es) vs
  | _, _ => True

/-- Every printed part is read back. -/
theorem rereads_of_printed {part : Part} (h : Printed part ts) :
    Rereads part ts ∧ RereadsSplit part ts := by
  induction h with
  | targetName _ => exact ⟨rereads_targetName _, trivial⟩
  | @targetTuple targets _ _ hne ih =>
    cases targets with
    | nil => exact absurd rfl hne
    | cons t targets =>
      obtain ⟨us, vs, rfl, ht, hts⟩ := ih.2
      exact ⟨rereads_targetTuple ht hts, trivial⟩
  | targetsNil => exact ⟨rereads_targetsNil, trivial⟩
  | targetsCons _ _ ih₁ ih₂ =>
    exact ⟨rereads_targetsCons ih₁.1 ih₂.1, _, _, rfl, ih₁.1, ih₂.1⟩
  | name _ | int _ | float _ | none | true | false => exact ⟨rereads_alone rfl, trivial⟩
  | str text => exact ⟨rereads_str text, trivial⟩
  | @tuple es _ _ ih =>
    cases es with
    | nil =>
      rw [ih.1.1 rfl]
      exact ⟨rereads_emptyTuple, trivial⟩
    | cons e es =>
      obtain ⟨us, vs, rfl, he, hes⟩ := ih.2
      exact ⟨rereads_tuple (Operand.item he) hes, trivial⟩
  | @list es _ _ ih =>
    cases es with
    | nil =>
      rw [ih.1.1 rfl]
      exact ⟨rereads_emptyList, trivial⟩
    | cons e es =>
      obtain ⟨us, vs, rfl, he, hes⟩ := ih.2
      exact ⟨rereads_list (Operand.item he) hes, trivial⟩
  | @dict es _ _ ih =>
    cases es with
    | nil =>
      rw [ih.1.1 rfl]
      exact ⟨rereads_emptyDict, trivial⟩
    | cons e es =>
      obtain ⟨us, vs, ws, rfl, hk, he, hes⟩ := ih.2
      exact ⟨rereads_dict (Operand.item hk) (Operand.item he) hes, trivial⟩
  | generator _ _ hne ih₁ ih₂ => exact ⟨rereads_generator ih₁.1 ih₂.1 hne, trivial⟩
  | listComp _ _ hne ih₁ ih₂ => exact ⟨rereads_listComp ih₁.1 ih₂.1 hne, trivial⟩
  | dictComp _ _ _ hne ih₁ ih₂ ih₃ => exact ⟨rereads_dictComp ih₁.1 ih₂.1 ih₃.1 hne, trivial⟩
  | member _ _ _ ih => exact ⟨rereads_member _ ih.1, trivial⟩
  | subscripted _ _ ih₁ ih₂ => exact ⟨rereads_subscripted ih₁.1 ih₂.1, trivial⟩
  | call _ _ hkeys ih₁ ih₂ => exact ⟨rereads_call ih₁.1 ih₂.1 hkeys, trivial⟩
  | binary op _ _ ih₁ ih₂ => exact ⟨rereads_binary op ih₁.1 ih₂.1, trivial⟩
  | unary op _ ih => exact ⟨rereads_unary op ih.1, trivial⟩
  | logic op _ _ ih₁ ih₂ => exact ⟨rereads_logic op ih₁.1 ih₂.1, trivial⟩
  | compare _ _ hne ih₁ ih₂ => exact ⟨rereads_compare ih₁.1 ih₂.1 hne, trivial⟩
  | conditional _ _ _ ih₁ ih₂ ih₃ => exact ⟨rereads_conditional ih₁.1 ih₂.1 ih₃.1, trivial⟩
  | itemsNil => exact ⟨rereads_itemsNil, trivial⟩
  | itemsCons _ _ ih₁ ih₂ =>
    exact ⟨rereads_itemsCons (Operand.item ih₁.1) ih₂.1, _, _, rfl, ih₁.1, ih₂.1⟩
  | entriesNil => exact ⟨rereads_entriesNil, trivial⟩
  | entriesCons _ _ _ ih₁ ih₂ ih₃ =>
    exact ⟨rereads_entriesCons (Operand.item ih₁.1) (Operand.item ih₂.1) ih₃.1,
      _, _, _, rfl, ih₁.1, ih₂.1, ih₃.1⟩
  | positional _ ih => exact ⟨rereads_positional ih.1, trivial⟩
  | keyword _ _ ih => exact ⟨rereads_keyword _ ih.1, trivial⟩
  | unpack _ ih => exact ⟨(rereads_unpack ih.1).1, trivial⟩
  | unpackKeywords _ ih => exact ⟨(rereads_unpack ih.1).2, trivial⟩
  | argumentsNil => exact ⟨rereads_argumentsNil, trivial⟩
  | argumentsCons _ _ ih₁ ih₂ => exact ⟨rereads_argumentsCons ih₁.1 ih₂.1, trivial⟩
  | linksNil => exact ⟨rereads_linksNil, trivial⟩
  | linksCons op _ _ ih₁ ih₂ => exact ⟨rereads_linksCons op ih₁.1 ih₂.1, trivial⟩
  | clausesNil => exact ⟨rereads_clausesNil, trivial⟩
  | clausesCons _ _ _ _ ih₁ ih₂ ih₃ ih₄ =>
    exact ⟨rereads_clausesCons ih₁.1 ih₂.1 ih₃.1 ih₄.1, trivial⟩
  | conditionsNil => exact ⟨rereads_conditionsNil, trivial⟩
  | conditionsCons _ _ ih₁ ih₂ => exact ⟨rereads_conditionsCons ih₁.1 ih₂.1, trivial⟩
  | noBound => exact ⟨rereads_noBound, trivial⟩
  | someBound _ ih => exact ⟨rereads_someBound ih.1, trivial⟩
  | subscriptExpr _ ih => exact ⟨rereads_subscriptExpr ih.1, trivial⟩
  | slice _ _ ih₁ ih₂ => exact ⟨rereads_slice ih₁.1 ih₂.1, trivial⟩
  | sliceStep _ _ _ ih₁ ih₂ ih₃ => exact ⟨rereads_sliceStep ih₁.1 ih₂.1 ih₃.1, trivial⟩
  | subscriptsNil => exact ⟨rereads_subscriptsNil, trivial⟩
  | subscriptsCons _ _ ih₁ ih₂ =>
    exact ⟨rereads_subscriptsCons ih₁.1 ih₂.1, _, _, rfl, ih₁.1, ih₂.1⟩
  | indexOne _ _ ih => exact ⟨rereads_indexOne ih.1, trivial⟩
  | indexTuple _ ih =>
    obtain ⟨us, vs, rfl, he, hes⟩ := ih.2
    exact ⟨rereads_indexTuple he hes, trivial⟩
  | source _ ih => exact ⟨ih.1, trivial⟩

theorem Expr.parse_of_item {text : List Char} (hlex : Lexer.Lexes text ts) (h : Item e ts) :
    Expr.parse text = .ok e := by
  obtain ⟨spanned, htokens, hmap⟩ := Lexer.tokenize_eq_ok_iff.mpr hlex
  have hlen : spanned.length = ts.length := by rw [← hmap, List.length_map]
  have hread : Leaves (expressionList (depthFor spanned.length)) ts e [] := by
    have hend : binding ([] : List Token).head? < 1 := Nat.zero_lt_one
    have htest := h.test hend (d := depthFor spanned.length) (by rw [depthFor, hlen]; omega)
    rw [List.append_nil] at htest
    exact htest.bind (Leaves.checkOther (by simp) (Leaves.pure e []))
  obtain ⟨out, hrun, hout⟩ := @hread ⟨spanned, Text.byteLength text⟩ hmap
  have hempty : out.tokens = [] := List.map_eq_nil_iff.mp hout
  have hrun : (expressionList (depthFor spanned.length)).run
      ⟨spanned, Text.byteLength text⟩ = .ok (e, out) := hrun
  simp only [Expr.parse, htokens, hrun, bind, Except.bind, hempty]
  rfl

theorem Expr.parse_print_of_printed (h : Printed (.expr e) ts) : Expr.parse e.print = .ok e := by
  have hlex : Lexer.Lexes e.print ts := by
    simpa [Part.print] using lexes_print h (follows_nil _) Lexer.Lexes.nil
  have hoperand : Operand e ts := (rereads_of_printed h).1
  exact Expr.parse_of_item hlex hoperand.item

/-- Printing undoes reading: the text of an expression that was read is read as the same
expression, if it has no float constant and no attribute of an integer constant. -/
theorem Expr.parse_source_of_parse {source : List Char} {e : Expr} (h : Expr.parse source = .ok e)
    (hplain : ∀ s ∈ e.subterms, s.isPlain = true) : Expr.parse e.source.toList = .ok e := by
  obtain ⟨tokens, htokens, hspells⟩ := Expr.spells_of_parse h
  have hlex : Lexer.Lexes source (tokens.map (·.token)) :=
    Lexer.tokenize_eq_ok_iff.mp ⟨tokens, htokens, rfl⟩
  obtain ⟨ts, hprinted⟩ := printed_of_spells hspells (Lexer.isRead_of_lexes hlex) hplain
  cases hprinted with
  | source hprinted =>
    rw [Expr.source, String.toList_ofList]
    exact Expr.parse_print_of_printed hprinted

/-- A negation is put in parentheses, and an index of one slice keeps its comma. -/
theorem Expr.parse_source_of_negated_slice :
    ∃ e : Expr, Expr.parse "not x[1:,]".toList = .ok e ∧ (∀ s ∈ e.subterms, s.isPlain = true) ∧
      e.source = "(not x[1:,])" ∧ Expr.parse e.source.toList = .ok e := by
  let e : Expr := .unary .not
    (.subscript (.name "x") (.tuple [.slice (some (.constant (.int 1))) none none]))
  have hparse : Expr.parse "not x[1:,]".toList = .ok e := by cbv
  have hplain : ∀ s ∈ e.subterms, s.isPlain = true := by decide
  exact ⟨e, hparse, hplain, by rfl, Expr.parse_source_of_parse hparse hplain⟩

/-! ## Targets of comprehensions -/

/-- The target of a clause is the one that its form means, if every lone target in brackets is a name.
A lone tuple in brackets is read as that tuple, so a level is lost. -/
theorem Expr.parse_targets (items : TargetForms) :
    (∀ {d s us}, s ∈ targetEnds → 2 * items.tokens.length + 1 ≤ d →
      Leaves (targetList d) (items.tokens ++ .symbol s :: us) (items.whole Target.toTuple id)
        (.symbol s :: us)) ∧
    (∀ {source e iter conds cs us vs ws xs}, Rereads (.expr e) us → Rereads (.expr iter) vs →
      Rereads (.conditions conds) ws → Rereads (.clauses cs) xs →
      Lexer.Lexes source (.symbol .lbracket :: (us ++
        .symbol .for :: (items.tokens ++ .symbol .in :: (vs ++ (ws ++ xs)))) ++ [.symbol .rbracket]) →
      Expr.parse source =
        .ok (.listComp e (⟨items.whole Target.toTuple id, iter, conds⟩ :: cs))) ∧
    (items.whole Target.toTuple id = items.whole Target.single id ↔ items.LoneNames) := by
  refine ⟨leaves_targetList items, fun he hiter hconds hcs hsource => ?_, items.whole_eq_iff.1⟩
  have hclauses := rereads_clause items hiter hconds hcs
  have hoperand : Operand _ _ := rereads_listComp he hclauses (List.cons_ne_nil _ _)
  exact Expr.parse_of_item hsource hoperand.item

/-- A name in brackets and one in parentheses. -/
theorem Expr.parse_targets_of_names :
    let items : TargetForms :=
      .cons (.brackets (.last (.name "x") false)) (.last (.parens (.last (.name "y") false)) false)
    items.LoneNames ∧ items.whole Target.toTuple id = items.whole Target.single id ∧
      Expr.parse "[y for [x], (y) in z]".toList =
        .ok (.listComp (.name "y") [⟨items.whole Target.single id, .name "z", []⟩]) := by
  intro items
  have hnames : items.LoneNames := by
    simp [items, TargetForms.LoneNames, TargetForm.LoneNames, TargetForm.target]
  have hlex : ∃ tokens, Lexer.tokenize "[y for [x], (y) in z]".toList = .ok tokens ∧
      tokens.map (·.token) = [.symbol .lbracket, .name "y", .symbol .for] ++ items.tokens ++
        [.symbol .in, .name "z", .symbol .rbracket] := by
    refine ⟨?tokens, ?lex, ?map⟩
    case lex => cbv; rfl
    case map => rfl
  obtain ⟨-, hparse, hsame⟩ := Expr.parse_targets items
  have hread := hparse (rereads_alone rfl) (rereads_alone rfl) rereads_conditionsNil
    rereads_clausesNil (Lexer.tokenize_eq_ok_iff.mp hlex)
  rw [hsame.mpr hnames] at hread
  exact ⟨hnames, hsame.mpr hnames, hread⟩

/-- A pair in brackets is read as the pair, not as a tuple that holds it. -/
theorem Expr.pair_in_brackets_unwrapped :
    let items : TargetForms :=
      .last (.brackets (.last (.parens (.cons (.name "a") (.last (.name "b") false))) false)) false
    Expr.parse "[a for [(a, b)] in c]".toList =
        .ok (.listComp (.name "a") [⟨.tuple [.name "a", .name "b"], .name "c", []⟩]) ∧
      items.whole Target.single id = .tuple [.tuple [.name "a", .name "b"]] := by
  refine ⟨by cbv, ?_⟩
  simp [TargetForms.whole, TargetForms.targets, TargetForm.target, Target.single]

end ComponentMarkup
