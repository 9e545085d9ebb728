import ComponentMarkup.Expr.Parser
import ComponentMarkup.Proofs.Running

/-!
# What a reader of tokens takes

`Takes P p R` says of a reader `p`: whenever the tokens ahead satisfy `P` and `p` succeeds, the
tokens that it took stand in the relation `R` to its result. The rules below follow the steps that
readers are made of. Looking at a token strengthens `P`, passing over one adds it to what was taken,
and a sequence of two readers takes what the first takes and then what the second takes.
-/

namespace ComponentMarkup.Parser

variable {α β : Type} {P Q : List Token → Prop} {R : α → List Token → Prop}
  {S : β → List Token → Prop} {symbol : Symbol} {input : ParserInput} {r : α × ParserInput}

/-- From tokens with the property `P`, the reader takes tokens that stand in the relation `R` to its
result, if it succeeds. -/
def Takes (P : List Token → Prop) (p : Parser α) (R : α → List Token → Prop) : Prop :=
  ∀ ⦃input : ParserInput⦄ ⦃a : α⦄ ⦃out : ParserInput⦄, P (input.tokens.map (·.token)) →
    p input = .ok (a, out) →
    ∃ used, input.tokens = used ++ out.tokens ∧ R a (used.map (·.token))

/-- Any tokens. -/
def anyTokens (_ : List Token) : Prop :=
  True

/-! ## Running the steps -/

theorem peek?_run (input : ParserInput) :
    peek? input = .ok (input.tokens.head?.map (·.token), input) := rfl

theorem peekSecond?_run (input : ParserInput) :
    peekSecond? input = .ok ((input.tokens.drop 1).head?.map (·.token), input) := rfl

theorem skip_run (count : Nat) (input : ParserInput) :
    skip count input = .ok ((), ⟨input.tokens.drop count, input.stop⟩) := rfl

theorem check_run (symbol : Symbol) (input : ParserInput) :
    check symbol input = .ok (isSymbol symbol (input.tokens.head?.map (·.token)), input) := rfl

theorem isSymbol_iff {t : Option Token} : isSymbol symbol t = true ↔ t = some (.symbol symbol) := by
  cases t with
  | none => simp [isSymbol]
  | some t => cases t <;> simp [isSymbol]

theorem eat_run (symbol : Symbol) (input : ParserInput) :
    eat symbol input =
      if isSymbol symbol (input.tokens.head?.map (·.token)) then
        .ok (true, ⟨input.tokens.drop 1, input.stop⟩)
      else .ok (false, input) := by
  change (if isSymbol symbol (input.tokens.head?.map (·.token)) then
    (skip 1 >>= fun _ => pure true : Parser Bool) else pure false) input = _
  split <;> rfl

theorem unexpected_ne_ok {what : Expectation} : (unexpected what : Parser α) input ≠ .ok r := by
  intro h
  cases h

theorem throw_ne_ok {e : SyntaxError} : (throw e : Parser α) input ≠ .ok r := by
  intro h
  cases h

/-- The next token is known to be a symbol exactly if it heads the tokens ahead. -/
theorem isSymbol_head_iff {tokens : List Spanned} :
    isSymbol symbol (tokens.head?.map (·.token)) = true ↔
      ∃ t rest, tokens = t :: rest ∧ t.token = .symbol symbol := by
  rw [isSymbol_iff]
  cases tokens <;> simp

/-! ## Rules

The property of the tokens ahead is carried along: after `us` were taken, the tokens ahead are some
`vs` for which `us ++ vs` has it. Where it is of no use it is dropped by `Takes.ofAny`. -/

namespace Takes

variable {p : Parser α} {f : α → Parser β} {t : Token}

theorem mono {R' : α → List Token → Prop} (h : Takes P p R) (hR : ∀ a ts, R a ts → R' a ts) :
    Takes P p R' := by
  intro input a out hP hrun
  obtain ⟨used, happ, hr⟩ := h hP hrun
  exact ⟨used, happ, hR a _ hr⟩

theorem weaken (h : Takes Q p R) (hPQ : ∀ ts, P ts → Q ts) : Takes P p R :=
  fun _ _ _ hP hrun => h (hPQ _ hP) hrun

theorem ofAny (h : Takes anyTokens p R) : Takes P p R :=
  h.weaken fun _ _ => trivial

/-- A result that rests on what is known about the tokens ahead. -/
theorem pureAt {a : α} (h : ∀ ts, P ts → R a []) : Takes P (pure a) R := by
  intro input b out hP hrun
  cases hrun
  exact ⟨[], rfl, h _ hP⟩

theorem pure {a : α} (h : R a []) : Takes P (pure a) R :=
  pureAt fun _ _ => h

theorem unexpected {what : Expectation} : Takes P (unexpected what : Parser α) R :=
  fun _ _ _ _ hrun => absurd hrun unexpected_ne_ok

theorem throw_bind {e : SyntaxError} : Takes P (throw e >>= f) S := by
  intro input b out _ hrun
  obtain ⟨a, mid, herr, _⟩ := bind_eq_ok.mp hrun
  exact absurd herr throw_ne_ok

/-- Two readers in sequence. What the first one took is known when the second one starts. -/
theorem bind (hp : Takes P p R)
    (hf : ∀ a us, R a us → Takes (fun vs => P (us ++ vs)) (f a) fun b vs => S b (us ++ vs)) :
    Takes P (p >>= f) S := by
  intro input b out hP hrun
  obtain ⟨a, mid, hrun₁, hrun₂⟩ := bind_eq_ok.mp hrun
  obtain ⟨us, hus, hR⟩ := hp hP hrun₁
  have hmid : P (us.map (·.token) ++ mid.tokens.map (·.token)) := by
    rwa [← List.map_append, ← hus]
  obtain ⟨vs, hvs, hS⟩ := hf a _ hR hmid hrun₂
  refine ⟨us ++ vs, by rw [hus, hvs, List.append_assoc], ?_⟩
  simpa using hS

theorem map {g : α → β} (hp : Takes P p R) (hg : ∀ a us, R a us → S (g a) us) :
    Takes P (p >>= fun a => Pure.pure (g a)) S :=
  hp.bind fun a us hR => Takes.pure (by simpa using hg a us hR)

theorem offset {f : Nat → Parser β} (h : ∀ n, Takes P (f n) S) : Takes P (offset >>= f) S := by
  have hoff : Takes P Parser.offset fun _ us => us = [] := by
    intro input n out _ hrun
    cases hrun
    exact ⟨[], rfl, rfl⟩
  refine hoff.bind fun n us hus => ?_
  subst hus
  exact h n

theorem peek {f : Option Token → Parser β}
    (h : ∀ t, Takes (fun ts => P ts ∧ ts.head? = t) (f t) S) : Takes P (peek? >>= f) S := by
  intro input b out hP hrun
  obtain ⟨t, mid, hrun₁, hrun₂⟩ := bind_eq_ok.mp hrun
  rw [peek?_run] at hrun₁
  cases hrun₁
  exact h _ ⟨hP, by rw [List.head?_map]⟩ hrun₂

theorem peekSecond {f : Option Token → Parser β}
    (h : ∀ t, Takes (fun ts => P ts ∧ (ts.drop 1).head? = t) (f t) S) :
    Takes P (peekSecond? >>= f) S := by
  intro input b out hP hrun
  obtain ⟨t, mid, hrun₁, hrun₂⟩ := bind_eq_ok.mp hrun
  rw [peekSecond?_run] at hrun₁
  cases hrun₁
  exact h _ ⟨hP, by rw [← List.map_drop, List.head?_map]⟩ hrun₂

theorem skip {f : Unit → Parser β} (us : List Token) {count : Nat} (hcount : us.length = count)
    (hP : ∀ ts, P ts → us <+: ts) (h : Takes anyTokens (f ()) fun b vs => S b (us ++ vs)) :
    Takes P (skip count >>= f) S := by
  have hskip : Takes P (Parser.skip count) fun _ ts => ts = us := by
    intro input a out hPin hrun
    rw [skip_run] at hrun
    cases hrun
    refine ⟨input.tokens.take count, (List.take_append_drop _ _).symm, ?_⟩
    rw [List.map_take, ← hcount]
    exact (List.prefix_iff_eq_take.mp (hP _ hPin)).symm
  refine hskip.bind fun a ts hts => ?_
  subst hts
  exact h.ofAny

theorem skipKnown {f : Unit → Parser β} (hP : ∀ ts, P ts → ts.head? = some t)
    (h : Takes anyTokens (f ()) fun b vs => S b (t :: vs)) : Takes P (Parser.skip 1 >>= f) S := by
  refine skip [t] rfl (fun ts hts => ?_) h
  obtain ⟨rest, rfl⟩ := List.head?_eq_some_iff.mp (hP ts hts)
  exact ⟨rest, rfl⟩

/-- Passing over the next token, which was looked at last. -/
theorem skipNext {f : Unit → Parser β} (h : Takes anyTokens (f ()) fun b vs => S b (t :: vs)) :
    Takes (fun ts => P ts ∧ ts.head? = some t) (Parser.skip 1 >>= f) S :=
  skipKnown (fun _ hts => hts.2) h

theorem check {symbol : Symbol} {f : Bool → Parser β}
    (ht : Takes (fun ts => P ts ∧ ts.head? = some (.symbol symbol)) (f true) S)
    (hf : Takes P (f false) S) : Takes P (check symbol >>= f) S := by
  intro input b out hP hrun
  obtain ⟨c, mid, hrun₁, hrun₂⟩ := bind_eq_ok.mp hrun
  rw [check_run] at hrun₁
  cases hc : isSymbol symbol (input.tokens.head?.map (·.token)) with
  | false =>
    rw [hc] at hrun₁
    cases hrun₁
    exact hf hP hrun₂
  | true =>
    rw [hc] at hrun₁
    cases hrun₁
    refine ht ⟨hP, ?_⟩ hrun₂
    rw [List.head?_map]
    exact isSymbol_iff.mp hc

theorem eat {symbol : Symbol} {f : Bool → Parser β}
    (ht : Takes (fun vs => P (.symbol symbol :: vs)) (f true) fun b vs => S b (.symbol symbol :: vs))
    (hf : Takes (fun ts => P ts ∧ ts.head? ≠ some (.symbol symbol)) (f false) S) :
    Takes P (eat symbol >>= f) S := by
  intro input b out hP hrun
  obtain ⟨c, mid, hrun₁, hrun₂⟩ := bind_eq_ok.mp hrun
  rw [eat_run] at hrun₁
  split at hrun₁
  · next hc =>
    cases hrun₁
    obtain ⟨t, rest, htok, hsym⟩ := isSymbol_head_iff.mp hc
    simp only [htok, List.drop_one, List.tail_cons, List.map_cons, hsym] at hP hrun₂
    obtain ⟨used, happ, hS⟩ := ht hP hrun₂
    refine ⟨t :: used, by rw [htok, List.cons_append, ← happ], ?_⟩
    rw [List.map_cons, hsym]
    exact hS
  · next hc =>
    cases hrun₁
    refine hf ⟨hP, ?_⟩ hrun₂
    rw [List.head?_map]
    exact fun hsym => hc (isSymbol_iff.mpr hsym)

theorem atCloser {f : Bool → Parser β} (h : ∀ b, Takes P (f b) S) :
    Takes P (atCloser >>= f) S := by
  have hclose : Takes P Parser.atCloser fun _ us => us = [] :=
    peek fun t => pure rfl
  refine hclose.bind fun b us hus => ?_
  subst hus
  exact h b

theorem expect {symbol : Symbol} {f : Unit → Parser β}
    (h : Takes (fun vs => P (.symbol symbol :: vs)) (f ()) fun b vs => S b (.symbol symbol :: vs)) :
    Takes P (expect symbol >>= f) S := by
  have hexp : Takes P (Parser.expect symbol) fun _ us => us = [.symbol symbol] :=
    eat (pure rfl) unexpected
  refine hexp.bind fun a us hus => ?_
  subst hus
  exact h

end Takes

end ComponentMarkup.Parser
