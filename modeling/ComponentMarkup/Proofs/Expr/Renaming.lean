import Mathlib
import ComponentMarkup.Proofs.Expr.Lexing
import ComponentMarkup.Proofs.Expr.Taking

/-!
# The names of a source do not matter

The parser passes names on and compares keywords of a call with each other; it asks nothing else of
a name. So if the names of one source are those of another under a relation that is one-to-one, both
are read or neither is: `Expr.readable_of_renamed`.

`Mimics` says of two readers that they fail together and end at corresponding tokens. A reader that
mimics itself is `Blind` to names. This is shown for all functions of the descent at once, by induction
on the bound of the recursion. The same induction tells where errors point: at the start of a token
ahead or at the end of the source, so at offsets that have whatever property these have.
-/

namespace ComponentMarkup

/-- A relation between names that is one-to-one. -/
structure Renaming where
  /-- The first name is written as the second. -/
  names : String → String → Prop
  eq_iff : ∀ {a b a' b'}, names a b → names a' b' → (a = a' ↔ b = b')

variable {r : Renaming}

/-- Two tokens are the same up to their names. -/
inductive Token.Renamed (r : Renaming) : Token → Token → Prop
  | name {a b : String} : r.names a b → Token.Renamed r (.name a) (.name b)
  | same {t : Token} : (∀ name, t ≠ .name name) → Token.Renamed r t t

/-- The tokens ahead are the same up to their names. Those of the first source start, and it ends, at
offsets with a property. -/
structure ParserInput.Renamed (r : Renaming) (P : Nat → Prop) (input input' : ParserInput) : Prop where
  tokens : List.Forall₂ (fun s s' : Spanned => Token.Renamed r s.token s'.token ∧ P s.span.start)
    input.tokens input'.tokens
  stop : P input.stop

/-- A keyword was used before if and only if its counterpart was. -/
theorem Renaming.contains_iff {used used' : List String} (h : List.Forall₂ r.names used used')
    {a b : String} (hab : r.names a b) : used.contains a = used'.contains b := by
  induction h with
  | nil => rfl
  | cons hhead _ ih =>
    rw [List.contains_cons, List.contains_cons, ih, Bool.eq_iff_iff]
    simp only [Bool.or_eq_true, beq_iff_eq, r.eq_iff hab hhead]

namespace Parser

variable {P : Nat → Prop} {α β γ δ : Type}

/-- The token that stands a number of tokens ahead. -/
def ahead (count : Nat) (input : ParserInput) : Option Token :=
  (input.tokens.drop count).head?.map (·.token)

/-- Tokens ahead are two names, or they are the same. -/
theorem Renamed.ahead {input input' : ParserInput} (h : input.Renamed r P input') (count : Nat) :
    (∃ a b, r.names a b ∧ ahead count input = some (.name a) ∧
      ahead count input' = some (.name b)) ∨
    ahead count input = ahead count input' ∧ ∀ name, ahead count input ≠ some (.name name) := by
  unfold Parser.ahead
  generalize hrest : input.tokens.drop count = rest
  generalize hrest' : input'.tokens.drop count = rest'
  have hdrop : List.Forall₂ _ (input.tokens.drop count) (input'.tokens.drop count) :=
    List.forall₂_drop count h.tokens
  rw [hrest, hrest'] at hdrop
  cases hdrop with
  | nil => exact .inr ⟨rfl, by simp⟩
  | @cons s s' _ _ hhead _ =>
    obtain ⟨t, _⟩ := s
    obtain ⟨t', _⟩ := s'
    cases hhead.1 with
    | name hab => exact .inl ⟨_, _, hab, rfl, rfl⟩
    | same hne => exact .inr ⟨rfl, by simpa using hne⟩

/-- Two runs fail together, the first at an offset with a property, or end at tokens that are the same
up to their names. -/
inductive Agree (r : Renaming) (P : Nat → Prop) :
    Except SyntaxError (α × ParserInput) → Except SyntaxError (β × ParserInput) → Prop
  | ok {a b out out'} : out.Renamed r P out' → Agree r P (.ok (a, out)) (.ok (b, out'))
  | error {e e'} : P e.offset → Agree r P (.error e) (.error e')

/-- From tokens that are the same up to their names, two readers agree. -/
def Mimics (r : Renaming) (P : Nat → Prop) (p : Parser α) (q : Parser β) : Prop :=
  ∀ ⦃input input' : ParserInput⦄, input.Renamed r P input' → Agree r P (p input) (q input')

/-- A reader asks nothing of a name but its keywords. -/
abbrev Blind (r : Renaming) (P : Nat → Prop) (p : Parser α) : Prop :=
  Mimics r P p p

/-! ## Rules -/

theorem Agree.bind {x : Except SyntaxError (α × ParserInput)}
    {y : Except SyntaxError (β × ParserInput)}
    {f : α × ParserInput → Except SyntaxError (γ × ParserInput)}
    {g : β × ParserInput → Except SyntaxError (δ × ParserInput)} (h : Agree r P x y)
    (hf : ∀ a b out out', out.Renamed r P out' → Agree r P (f (a, out)) (g (b, out'))) :
    Agree r P (x >>= f) (y >>= g) := by
  cases h with
  | ok hout => exact hf _ _ _ _ hout
  | error hpoint => exact .error hpoint

namespace Mimics

variable {f : α → Parser γ} {g : β → Parser δ} {p : Parser α} {q : Parser β}

theorem pure {a : α} {b : β} : Mimics r P (pure a) (pure b) :=
  fun _ _ h => .ok h

theorem throw_bind {e e' : SyntaxError} (he : P e.offset) :
    Mimics r P (throw e >>= f) (throw e' >>= g) :=
  fun _ _ _ => .error he

theorem bind (hp : Mimics r P p q) (hf : ∀ a b, Mimics r P (f a) (g b)) :
    Mimics r P (p >>= f) (q >>= g) :=
  fun _ _ h => (hp h).bind fun a b _ _ hout => hf a b hout

theorem map {f : α → γ} {g : β → δ} (hp : Mimics r P p q) :
    Mimics r P (p >>= fun a => Pure.pure (f a)) (q >>= fun b => Pure.pure (g b)) :=
  hp.bind fun _ _ => pure

/-- The offset reached is one of a token ahead, or the end. -/
theorem offset {f : Nat → Parser α} {g : Nat → Parser β}
    (h : ∀ n n', P n → Mimics r P (f n) (g n')) : Mimics r P (offset >>= f) (offset >>= g) := by
  rintro ⟨tokens, stop⟩ ⟨tokens', stop'⟩ hin
  obtain ⟨htokens, hstop⟩ := hin
  dsimp only at htokens hstop
  cases htokens with
  | nil => exact h stop stop' hstop ⟨.nil, hstop⟩
  | cons hhead hrest => exact h _ _ hhead.2 ⟨.cons hhead hrest, hstop⟩

theorem unexpected {what : Expectation} :
    Mimics r P (unexpected what : Parser α) (unexpected what : Parser β) :=
  bind (fun _ _ hin => .ok hin) fun _ _ => offset fun _ _ hn _ _ _ => .error hn

theorem skip {f : Unit → Parser α} {g : Unit → Parser β} {count : Nat}
    (h : Mimics r P (f ()) (g ())) : Mimics r P (skip count >>= f) (skip count >>= g) := by
  refine bind (fun input input' hin => ?_) fun _ _ => h
  rw [skip_run, skip_run]
  exact .ok ⟨List.forall₂_drop count hin.tokens, hin.stop⟩

section Looking

variable {f : Option Token → Parser α} {g : Option Token → Parser β}
  (hname : ∀ a b, r.names a b → Mimics r P (f (some (.name a))) (g (some (.name b))))
  (hsame : ∀ t, (∀ name, t ≠ some (.name name)) → Mimics r P (f t) (g t))

include hname hsame

/-- A token that is looked at is the same in both sources, or a name. -/
theorem lookAhead (n : Nat) :
    Mimics r P (fun input => f (ahead n input) input) fun input => g (ahead n input) input := by
  intro input input' h
  show Agree r P (f (ahead n input) input) (g (ahead n input') input')
  rcases Renamed.ahead h n with ⟨a, b, hab, ht, ht'⟩ | ⟨ht, hne⟩
  · rw [ht, ht']
    exact hname a b hab h
  · rw [← ht]
    exact hsame _ hne h

theorem peek : Mimics r P (peek? >>= f) (peek? >>= g) :=
  lookAhead hname hsame 0

theorem peekSecond : Mimics r P (peekSecond? >>= f) (peekSecond? >>= g) :=
  lookAhead hname hsame 1

end Looking

/-- A token that is looked at and not used. -/
theorem anySecond {f g : Option Token → Parser α} (h : ∀ t t', Mimics r P (f t) (g t')) :
    Mimics r P (peekSecond? >>= f) (peekSecond? >>= g) :=
  bind (fun _ _ hin => .ok hin) h

theorem check {symbol : Symbol} {f : Bool → Parser α} {g : Bool → Parser β}
    (ht : Mimics r P (f true) (g true)) (hf : Mimics r P (f false) (g false)) :
    Mimics r P (check symbol >>= f) (check symbol >>= g) := by
  have hboth (b : Bool) : Mimics r P (f b) (g b) := by
    cases b with
    | false => exact hf
    | true => exact ht
  exact peek (fun _ _ _ => hboth false) fun t _ => hboth _

theorem eat {symbol : Symbol} {f : Bool → Parser α} {g : Bool → Parser β}
    (ht : Mimics r P (f true) (g true)) (hf : Mimics r P (f false) (g false)) :
    Mimics r P (eat symbol >>= f) (eat symbol >>= g) := by
  rw [Parser.eat, bind_assoc, bind_assoc]
  refine check ?_ ?_
  · rw [if_pos rfl, bind_assoc, bind_assoc]
    exact skip ht
  · exact hf

theorem expect {symbol : Symbol} {f : Unit → Parser α} {g : Unit → Parser β}
    (h : Mimics r P (f ()) (g ())) : Mimics r P (expect symbol >>= f) (expect symbol >>= g) :=
  bind (eat pure unexpected) fun _ _ => h

theorem atCloser {f : Bool → Parser α} {g : Bool → Parser β} (h : ∀ b, Mimics r P (f b) (g b)) :
    Mimics r P (atCloser >>= f) (atCloser >>= g) := by
  simp only [Parser.atCloser, bind_assoc, pure_bind]
  exact peek (fun _ _ _ => h false) fun t _ => h _

end Mimics

/-! ## Specifications -/

/-- All functions of the descent, at one bound of the recursion, treat names alike. What they are
handed over does not matter, but for the keywords that a call has used. -/
structure Uniform (r : Renaming) (P : Nat → Prop) (depth : Nat) : Prop where
  target : Blind r P (target depth)
  targetList : Blind r P (targetList depth)
  moreTargets : Blind r P (moreTargets depth)
  test : Blind r P (test depth)
  level : ∀ l, Blind r P (level depth l)
  joined : ∀ here next left left',
    Mimics r P (joined depth here next left) (joined depth here next left')
  comparisons : Blind r P (comparisons depth)
  trailers : ∀ e e', Mimics r P (trailers depth e) (trailers depth e')
  atom : Blind r P (atom depth)
  parenthesized : Blind r P (parenthesized depth)
  bracketed : Blind r P (bracketed depth)
  -- the brace is no longer ahead when an error points back at it
  braced : ∀ {start start'}, P start → Mimics r P (braced depth start) (braced depth start')
  moreItems : Blind r P (moreItems depth)
  moreEntries : Blind r P (moreEntries depth)
  forClauses : Blind r P (forClauses depth)
  conditionList : Blind r P (conditionList depth)
  arguments : ∀ {done done' used used'}, done.isEmpty = done'.isEmpty →
    List.Forall₂ r.names used used' →
    Mimics r P (arguments depth done used) (arguments depth done' used')
  nextArgument : ∀ {done done' used used'}, done.isEmpty = done'.isEmpty →
    List.Forall₂ r.names used used' →
    Mimics r P (nextArgument depth done used) (nextArgument depth done' used')
  subscripts : Blind r P (subscripts depth)
  moreSubscripts : Blind r P (moreSubscripts depth)
  subscript : Blind r P (subscript depth)
  sliceAfter : ∀ lower lower', Mimics r P (sliceAfter depth lower) (sliceAfter depth lower')
  slicePart : Blind r P (slicePart depth)

/-- With the bound used up both sources are refused. -/
theorem uniform_zero : Uniform r P 0 := by
  constructor <;> intros <;> exact Mimics.unexpected

/-! ## Steps -/

section Steps

variable {depth : Nat} (ih : Uniform r P depth) {done done' : List Argument}
  {used used' : List String}

include ih

theorem blind_target : Blind r P (target (depth + 1)) := by
  rw [target]
  refine Mimics.peek (fun a b _ => Mimics.skip Mimics.pure) fun t _ => ?_
  split
  · exact Mimics.skip Mimics.pure
  · exact Mimics.skip (ih.targetList.bind fun _ _ => Mimics.expect Mimics.pure)
  · exact Mimics.skip (ih.targetList.bind fun _ _ => Mimics.expect Mimics.pure)
  · exact Mimics.unexpected

theorem blind_targetList : Blind r P (targetList (depth + 1)) := by
  rw [targetList]
  exact ih.target.bind fun _ _ => Mimics.check ih.moreTargets.map Mimics.pure

theorem blind_moreTargets : Blind r P (moreTargets (depth + 1)) := by
  rw [moreTargets]
  have hmore : Mimics r P
      (Parser.target depth >>= fun item => do return item :: (← Parser.moreTargets depth))
      (Parser.target depth >>= fun item => do return item :: (← Parser.moreTargets depth)) :=
    ih.target.bind fun _ _ => ih.moreTargets.map
  refine Mimics.eat (Mimics.peek (fun _ _ _ => hmore) fun t _ => ?_) Mimics.pure
  split
  · exact Mimics.pure
  · exact Mimics.pure
  · exact Mimics.pure
  · exact hmore

/-! ### Operators -/

theorem blind_joined (here next : Level) (left left' : Expr) :
    Mimics r P (joined (depth + 1) here next left) (joined (depth + 1) here next left') := by
  rw [joined, joined]
  have hnone (name : String) : joiner? here (some (.name name)) = none := by
    cases here <;> rfl
  refine Mimics.peek (fun a b _ => ?_) fun t _ => ?_
  · rw [hnone, hnone]
    exact Mimics.pure
  · cases joiner? here t with
    | none => exact Mimics.pure
    | some join => exact Mimics.skip ((ih.level next).bind fun _ _ => ih.joined here next _ _)

omit ih in
/-- Which comparison the tokens stand for does not depend on the name that comes second. -/
theorem comparison?_name (t : Option Token) (a b : String) :
    comparison? t (some (.name a)) = comparison? t (some (.name b)) := by
  rcases t with _ | t
  · rfl
  cases t with
  | symbol symbol => cases symbol <;> rfl
  | name _ | int _ | float _ | str _ => rfl

theorem blind_comparisons : Blind r P (comparisons (depth + 1)) := by
  rw [comparisons]
  refine Mimics.peek (fun a b _ => Mimics.peekSecond (fun _ _ _ => Mimics.pure)
    fun _ _ => Mimics.pure) fun t _ => Mimics.peekSecond (fun a b _ => ?_) fun u _ => ?_
  · rw [comparison?_name t a b]
    split
    · exact Mimics.skip ((ih.level .sum).bind fun _ _ => ih.comparisons.map)
    · exact Mimics.pure
  · split
    · exact Mimics.skip ((ih.level .sum).bind fun _ _ => ih.comparisons.map)
    · exact Mimics.pure

theorem blind_level (l : Level) :
    Mimics r P (level (depth + 1) l) (level (depth + 1) l) := by
  cases l with
  | or =>
    rw [level]
    exact (ih.level .and).bind fun _ _ => ih.joined .or .and _ _
  | and =>
    rw [level]
    exact (ih.level .not).bind fun _ _ => ih.joined .and .not _ _
  | not =>
    rw [level]
    exact Mimics.eat (ih.level .not).map (ih.level .comparison)
  | comparison =>
    rw [level]
    refine (ih.level .sum).bind fun _ _ => ih.comparisons.bind fun chain chain' => ?_
    cases chain <;> cases chain' <;> exact Mimics.pure
  | sum =>
    rw [level]
    exact (ih.level .product).bind fun _ _ => ih.joined .sum .product _ _
  | product =>
    rw [level]
    exact (ih.level .sign).bind fun _ _ => ih.joined .product .sign _ _
  | sign =>
    rw [level]
    refine Mimics.peek (fun _ _ _ => ih.level .power) fun t _ => ?_
    split
    · exact Mimics.skip (ih.level .sign).map
    · exact Mimics.skip (ih.level .sign).map
    · exact ih.level .power
  | power =>
    rw [level]
    refine ih.atom.bind fun _ _ => (ih.trailers _ _).bind fun _ _ => ?_
    exact Mimics.eat (ih.level .sign).map Mimics.pure

theorem blind_test : Blind r P (test (depth + 1)) := by
  rw [test]
  refine Mimics.check (Mimics.offset fun _ _ hn => Mimics.throw_bind hn) ?_
  refine (ih.level .or).bind fun _ _ => Mimics.eat ?_ Mimics.pure
  exact (ih.level .or).bind fun _ _ => Mimics.expect ih.test.map

/-! ### Atoms and what follows them -/

theorem blind_trailers (e e' : Expr) :
    Mimics r P (trailers (depth + 1) e) (trailers (depth + 1) e') := by
  rw [trailers, trailers]
  refine Mimics.peek (fun _ _ _ => Mimics.pure) fun t _ => ?_
  split
  · exact Mimics.skip ((ih.arguments rfl .nil).bind fun _ _ => ih.trailers _ _)
  · exact Mimics.skip (ih.subscripts.bind fun _ _ => Mimics.expect (ih.trailers _ _))
  · refine Mimics.skip (Mimics.peek (fun _ _ _ => Mimics.skip (ih.trailers _ _)) fun u hu => ?_)
    split
    · exact absurd rfl (hu _)
    · exact Mimics.unexpected
  · exact Mimics.pure

omit ih in
theorem blind_adjacentStrings (depth : Nat) (text text' : String) :
    Mimics r P (adjacentStrings depth text) (adjacentStrings depth text') := by
  induction depth generalizing text text' with
  | zero => exact Mimics.pure
  | succ depth ih =>
    rw [adjacentStrings, adjacentStrings]
    refine Mimics.peek (fun _ _ _ => Mimics.pure) fun t _ => ?_
    split
    · exact Mimics.skip (ih _ _)
    · exact Mimics.pure

theorem blind_atom : Blind r P (atom (depth + 1)) := by
  rw [atom]
  refine Mimics.peek (fun _ _ _ => Mimics.skip Mimics.pure) fun t _ => ?_
  split
  any_goals exact Mimics.skip Mimics.pure
  · exact Mimics.skip (blind_adjacentStrings depth _ _).map
  · exact Mimics.skip ih.parenthesized
  · exact Mimics.skip ih.bracketed
  · exact Mimics.offset fun _ _ hstart => Mimics.skip (ih.braced hstart)
  · exact Mimics.unexpected

theorem blind_parenthesized : Blind r P (parenthesized (depth + 1)) := by
  rw [parenthesized]
  refine Mimics.eat Mimics.pure (ih.test.bind fun _ _ => Mimics.check ?_ (Mimics.eat Mimics.pure ?_))
  · exact ih.forClauses.bind fun _ _ => Mimics.expect Mimics.pure
  · exact ih.moreItems.bind fun _ _ => Mimics.expect Mimics.pure

theorem blind_bracketed : Blind r P (bracketed (depth + 1)) := by
  rw [bracketed]
  refine Mimics.eat Mimics.pure (ih.test.bind fun _ _ => Mimics.check ?_ ?_)
  · exact ih.forClauses.bind fun _ _ => Mimics.expect Mimics.pure
  · exact ih.moreItems.bind fun _ _ => Mimics.expect Mimics.pure

/-- A display of a set is refused where its brace stands. -/
theorem blind_braced {start start' : Nat} (hstart : P start) :
    Mimics r P (braced (depth + 1) start) (braced (depth + 1) start') := by
  rw [braced, braced]
  refine Mimics.eat Mimics.pure (ih.test.bind fun _ _ => Mimics.eat ?_ (Mimics.throw_bind hstart))
  refine ih.test.bind fun _ _ => Mimics.check ?_ ?_
  · exact ih.forClauses.bind fun _ _ => Mimics.expect Mimics.pure
  · exact ih.moreEntries.bind fun _ _ => Mimics.expect Mimics.pure

/-! ### Sequences and clauses -/

theorem blind_moreItems : Blind r P (moreItems (depth + 1)) := by
  rw [moreItems]
  refine Mimics.eat (Mimics.atCloser fun atEnd => ?_) Mimics.pure
  split
  · exact Mimics.pure
  · exact ih.test.bind fun _ _ => ih.moreItems.map

theorem blind_moreEntries : Blind r P (moreEntries (depth + 1)) := by
  rw [moreEntries]
  refine Mimics.eat (Mimics.atCloser fun atEnd => ?_) Mimics.pure
  split
  · exact Mimics.pure
  · refine ih.test.bind fun _ _ => Mimics.expect (ih.test.bind fun _ _ => ?_)
    exact ih.moreEntries.map

theorem blind_moreSubscripts : Blind r P (moreSubscripts (depth + 1)) := by
  rw [moreSubscripts]
  refine Mimics.eat (Mimics.atCloser fun atEnd => ?_) Mimics.pure
  split
  · exact Mimics.pure
  · exact ih.subscript.bind fun _ _ => ih.moreSubscripts.map

theorem blind_conditionList : Blind r P (conditionList (depth + 1)) := by
  rw [conditionList]
  exact Mimics.eat ((ih.level .or).bind fun _ _ => ih.conditionList.map) Mimics.pure

theorem blind_forClauses : Blind r P (forClauses (depth + 1)) := by
  rw [forClauses]
  refine Mimics.eat (ih.targetList.bind fun _ _ => Mimics.expect ?_) Mimics.pure
  refine (ih.level .or).bind fun _ _ => ih.conditionList.bind fun _ _ => ?_
  exact ih.forClauses.map

/-! ### Arguments -/

theorem blind_nextArgument (hdone : done.isEmpty = done'.isEmpty)
    (hused : List.Forall₂ r.names used used') :
    Mimics r P (nextArgument (depth + 1) done used) (nextArgument (depth + 1) done' used') := by
  rw [nextArgument, nextArgument]
  exact Mimics.eat (ih.arguments hdone hused) (Mimics.expect Mimics.pure)

/-- An argument without a keyword, which may be a comprehension if it is the only one. -/
theorem blind_positional (hdone : done.isEmpty = done'.isEmpty)
    (hused : List.Forall₂ r.names used used') :
    Mimics r P
      (do
        let value ← test depth
        if done.isEmpty && (← check .for) then
          let clauses ← forClauses depth
          expect .rparen
          return [.positional (.generator value clauses)]
        nextArgument depth (.positional value :: done) used)
      (do
        let value ← test depth
        if done'.isEmpty && (← check .for) then
          let clauses ← forClauses depth
          expect .rparen
          return [.positional (.generator value clauses)]
        nextArgument depth (.positional value :: done') used') := by
  rw [hdone]
  refine ih.test.bind fun _ _ => Mimics.check ?_ ?_
  · split
    · exact ih.forClauses.bind fun _ _ => Mimics.expect Mimics.pure
    · exact ih.nextArgument rfl hused
  · rw [Bool.and_false]
    exact ih.nextArgument rfl hused

/-- An argument with a keyword, which is refused if the keyword was used before. -/
theorem blind_keyword {a b : String} (hab : r.names a b) (hused : List.Forall₂ r.names used used') :
    Mimics r P
      (do
        if used.contains a then
          throw ⟨.repeatedKeyword a, ← offset⟩
        skip 2
        nextArgument depth (.keyword a (← test depth) :: done) (a :: used))
      (do
        if used'.contains b then
          throw ⟨.repeatedKeyword b, ← offset⟩
        skip 2
        nextArgument depth (.keyword b (← test depth) :: done') (b :: used')) := by
  rw [Renaming.contains_iff hused hab]
  split
  · exact Mimics.offset fun _ _ hn => Mimics.throw_bind hn
  · exact Mimics.skip (ih.test.bind fun _ _ => ih.nextArgument rfl (.cons hab hused))

theorem blind_arguments (hdone : done.isEmpty = done'.isEmpty)
    (hused : List.Forall₂ r.names used used') :
    Mimics r P (arguments (depth + 1) done used) (arguments (depth + 1) done' used') := by
  rw [arguments, arguments]
  have hpositional := blind_positional ih hdone hused
  refine Mimics.peek (fun a b hab => Mimics.peekSecond (fun _ _ _ => hpositional) fun u _ => ?_)
    fun t ht => ?_
  · -- a name is a keyword if the sign of an assignment follows it
    rcases u with _ | u
    · exact hpositional
    cases u with
    | symbol symbol =>
      cases symbol with
      | assign => exact blind_keyword ih hab hused
      | _ => exact hpositional
    | name _ | int _ | float _ | str _ => exact hpositional
  · rcases t with _ | t
    · exact Mimics.anySecond fun _ _ => hpositional
    cases t with
    | name a => exact absurd rfl (ht a)
    | symbol symbol =>
      have hunpacked {first first' : Expr → Argument} : Mimics r P
          (do skip 1; nextArgument depth (first (← test depth) :: done) used)
          (do skip 1; nextArgument depth (first' (← test depth) :: done') used') :=
        Mimics.skip (ih.test.bind fun _ _ => ih.nextArgument rfl hused)
      cases symbol with
      | rparen => exact Mimics.anySecond fun _ _ => Mimics.skip Mimics.pure
      | star => exact Mimics.anySecond fun _ _ => hunpacked
      | doubleStar => exact Mimics.anySecond fun _ _ => hunpacked
      | _ => exact Mimics.anySecond fun _ _ => hpositional
    | int _ | float _ | str _ => exact Mimics.anySecond fun _ _ => hpositional

/-! ### Subscripts -/

theorem blind_slicePart : Blind r P (slicePart (depth + 1)) := by
  rw [slicePart]
  refine Mimics.peek (fun _ _ _ => ih.test.map) fun t _ => ?_
  split
  · exact Mimics.pure
  · exact Mimics.pure
  · exact Mimics.pure
  · exact ih.test.map

theorem blind_sliceAfter (lower lower' : Option Expr) :
    Mimics r P (sliceAfter (depth + 1) lower) (sliceAfter (depth + 1) lower') := by
  rw [sliceAfter, sliceAfter]
  refine Mimics.expect (ih.slicePart.bind fun _ _ => ?_)
  exact Mimics.eat ih.slicePart.map Mimics.pure

theorem blind_subscript : Blind r P (subscript (depth + 1)) := by
  rw [subscript]
  refine Mimics.check (ih.sliceAfter _ _) (ih.test.bind fun _ _ => ?_)
  exact Mimics.check (ih.sliceAfter _ _) Mimics.pure

theorem blind_subscripts : Blind r P (subscripts (depth + 1)) := by
  rw [subscripts]
  exact ih.subscript.bind fun _ _ => Mimics.check ih.moreSubscripts.map Mimics.pure

/-! ## Whole sources -/

theorem uniform_succ : Uniform r P (depth + 1) where
  target := blind_target ih
  targetList := blind_targetList ih
  moreTargets := blind_moreTargets ih
  test := blind_test ih
  level := blind_level ih
  joined := blind_joined ih
  comparisons := blind_comparisons ih
  trailers := blind_trailers ih
  atom := blind_atom ih
  parenthesized := blind_parenthesized ih
  bracketed := blind_bracketed ih
  braced := blind_braced ih
  moreItems := blind_moreItems ih
  moreEntries := blind_moreEntries ih
  forClauses := blind_forClauses ih
  conditionList := blind_conditionList ih
  arguments := blind_arguments ih
  nextArgument := blind_nextArgument ih
  subscripts := blind_subscripts ih
  moreSubscripts := blind_moreSubscripts ih
  subscript := blind_subscript ih
  sliceAfter := blind_sliceAfter ih
  slicePart := blind_slicePart ih

end Steps

/-- The descent treats names alike at every bound. -/
theorem uniform (r : Renaming) (P : Nat → Prop) (depth : Nat) : Uniform r P depth := by
  induction depth with
  | zero => exact uniform_zero
  | succ depth ih => exact uniform_succ ih

theorem blind_expressionList (r : Renaming) (P : Nat → Prop) (depth : Nat) :
    Blind r P (expressionList depth) := by
  rw [expressionList]
  refine (uniform r P depth).test.bind fun _ _ => ?_
  exact Mimics.check (uniform r P depth).moreItems.map Mimics.pure

end Parser

namespace Expr

variable {source : List Char}

/-- A source can be read as one expression. -/
def Readable (source : List Char) : Prop :=
  ∃ e, Expr.parse source = .ok e

theorem readable_iff :
    Readable source ↔ ∃ tokens, Lexer.tokenize source = .ok tokens ∧
      ∃ e stop, Parser.expressionList (Parser.depthFor tokens.length)
        ⟨tokens, Text.byteLength source⟩ = .ok (e, ⟨[], stop⟩) := by
  unfold Readable Expr.parse
  cases htokens : Lexer.tokenize source with
  | error err => simp [bind, Except.bind]
  | ok tokens =>
    simp only [bind, Except.bind, Except.ok.injEq, exists_eq_left', StateT.run]
    cases hrun : Parser.expressionList (Parser.depthFor tokens.length)
        ⟨tokens, Text.byteLength source⟩ with
    | error err => simp
    | ok result =>
      obtain ⟨e, rest, stop⟩ := result
      cases rest with
      | nil => simp [pure, Except.pure]
      | cons t ts => simp [throw, throwThe, MonadExceptOf.throw]

theorem Readable.lexes (h : Readable source) : ∃ tokens, Lexer.Lexes source tokens := by
  obtain ⟨spanned, hspanned, -⟩ := readable_iff.mp h
  exact ⟨_, Lexer.tokenize_eq_ok_iff.mp ⟨spanned, hspanned, rfl⟩⟩

open Lexer in
/-- Whether a source can be read does not depend on its names. -/
theorem readable_of_renamed {source' : List Char} {tokens tokens' : List Token}
    (hlex : Lexes source tokens) (hlex' : Lexes source' tokens')
    (h : List.Forall₂ (Token.Renamed r) tokens tokens') (hread : Readable source) :
    Readable source' := by
  obtain ⟨spanned, hspanned, rfl⟩ := tokenize_eq_ok_iff.mpr hlex
  obtain ⟨spanned', hspanned', rfl⟩ := tokenize_eq_ok_iff.mpr hlex'
  obtain ⟨_, hsame, e, stop, hrun⟩ := readable_iff.mp hread
  obtain rfl : spanned = _ := Except.ok.inj (hspanned.symm.trans hsame)
  rw [List.forall₂_map_left_iff, List.forall₂_map_right_iff] at h
  have hinput : ParserInput.Renamed r (fun _ => True) ⟨spanned, Text.byteLength source⟩
      ⟨spanned', Text.byteLength source'⟩ := ⟨h.imp fun _ _ hrenamed => ⟨hrenamed, trivial⟩, trivial⟩
  have hagree := Parser.blind_expressionList r _ (Parser.depthFor spanned.length) hinput
  rw [hrun, h.length_eq] at hagree
  refine readable_iff.mpr ⟨spanned', hspanned', ?_⟩
  generalize Parser.expressionList (Parser.depthFor spanned'.length)
    ⟨spanned', Text.byteLength source'⟩ = result at hagree ⊢
  cases hagree with
  | @ok _ e' _ out' hout =>
    obtain ⟨rest, stop'⟩ := out'
    cases hout.tokens
    exact ⟨e', stop', rfl⟩

end Expr

end ComponentMarkup
