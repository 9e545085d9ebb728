import ComponentMarkup.Expr.Fill
import ComponentMarkup.Expr.Names

/-!
# Filling as substitution

Filling goes through an expression once and uses each filling at the first leaf with its name. Where
no name that has a filling occurs twice, this is the replacement of all leaves at once. `Fills` states
it for any computation that visits given names, so that it is proved along the monad: what was visited
first does not change what is filled later.
-/

namespace ComponentMarkup

/-- Every name that has a filling occurs at most once. -/
def Once (names : List String) (parts : Entries String Expr) : Prop :=
  ∀ n, (parts.lookup n).isSome → names.count n ≤ 1

/-- The fillings whose names do not occur. -/
def unused (names : List String) (parts : Entries String Expr) : Entries String Expr :=
  parts.filter fun part => !names.contains part.1

theorem unused_nil (parts : Entries String Expr) : unused [] parts = parts := by
  simp [unused]

theorem unused_append (names more : List String) (parts : Entries String Expr) :
    unused (names ++ more) parts = unused more (unused names parts) := by
  simp only [unused, List.filter_filter, List.contains_eq_mem, List.mem_append]
  congr 1
  funext part
  simp only [Bool.decide_or, Bool.not_or, Bool.and_comm]

theorem lookup_unused (names : List String) (parts : Entries String Expr) (n : String) :
    (unused names parts).lookup n = if n ∈ names then none else parts.lookup n := by
  induction parts with
  | nil => simp [unused]
  | cons part parts ih =>
    obtain ⟨k, e⟩ := part
    unfold unused at ih ⊢
    by_cases hk : k ∈ names
    · rw [List.filter_cons_of_neg (by simpa using hk), ih, List.lookup_cons]
      by_cases hn : n ∈ names
      · rw [if_pos hn, if_pos hn]
      · have hne : (n == k) = false := by
          refine beq_false_of_ne ?_
          rintro rfl
          exact hn hk
        rw [if_neg hn, if_neg hn, hne]
    · rw [List.filter_cons_of_pos (by simpa using hk), List.lookup_cons, List.lookup_cons, ih]
      by_cases hne : n = k
      · subst hne
        simp [hk]
      · rw [beq_false_of_ne hne]

/-- A computation visits names and fills them. Its result depends on their fillings only. -/
structure Fills {α : Type} (names : List String) (x : Filling α)
    (f : (String → Option Expr) → α) : Prop where
  run : ∀ parts, Once names parts → x parts = (f fun n => parts.lookup n, unused names parts)
  reads : ∀ g h, (∀ n ∈ names, g n = h n) → f g = f h

namespace Fills

variable {α β : Type} {names : List String} {x : Filling α} {f : (String → Option Expr) → α}

theorem pure (a : α) : Fills [] (pure a : Filling α) (fun _ => a) := by
  refine ⟨?_, ?_⟩
  · intro parts _
    rw [unused_nil]
    rfl
  · intro g h _
    rfl

theorem leaf (n : String) : Fills [n] (Filling.leaf n) (fun f => (f n).getD (.name n)) := by
  refine ⟨?_, ?_⟩
  · intro parts _
    cases hlookup : parts.lookup n with
    | none =>
      have hrun : (Filling.leaf n).run parts = (.name n, parts) := by
        simp only [Filling.leaf, StateT.run_bind, StateT.run_get, StateT.run_pure, pure_bind,
          hlookup]
        rfl
      have hunused : unused [n] parts = parts := by
        refine List.filter_eq_self.mpr fun part hpart => ?_
        have hne := List.lookup_eq_none_iff.mp hlookup part hpart
        simpa using Ne.symm (bne_iff_ne.mp hne)
      simp only [hunused, hlookup]
      exact hrun
    | some e =>
      have hrun : (Filling.leaf n).run parts = (e, Entries.erase parts n) := by
        simp only [Filling.leaf, StateT.run_bind, StateT.run_get, StateT.run_set, StateT.run_pure,
          pure_bind, hlookup]
        rfl
      have hunused : unused [n] parts = Entries.erase parts n := by
        simp only [unused, Entries.erase, List.contains_cons, List.contains_nil, Bool.or_false]
      simp only [hunused, hlookup]
      exact hrun
  · intro g h hgh
    rw [hgh n List.mem_cons_self]

/-- What was visited first does not change what is filled later. -/
theorem bind {more : List String} {k : α → Filling β} {g : α → (String → Option Expr) → β}
    (hx : Fills names x f) (hk : ∀ a, Fills more (k a) (g a)) :
    Fills (names ++ more) (x >>= k) (fun σ => g (f σ) σ) := by
  refine ⟨?_, ?_⟩
  · intro parts honce
    have hfirst : Once names parts := by
      intro n hn
      have hle := honce n hn
      rw [List.count_append] at hle
      omega
    have hlater : Once more (unused names parts) := by
      intro n hn
      rw [lookup_unused] at hn
      split at hn
      · cases hn
      · have hle := honce n hn
        rw [List.count_append] at hle
        omega
    have hsame : ∀ n ∈ more, (unused names parts).lookup n = parts.lookup n := by
      intro n hn
      rw [lookup_unused]
      split
      · rename_i hmem
        -- a name in both parts occurs twice, so it has no filling
        cases hlookup : parts.lookup n with
        | none => rfl
        | some e =>
          have hle := honce n (by rw [hlookup]; rfl)
          have hpos := List.count_pos_iff.mpr hmem
          have hpos' := List.count_pos_iff.mpr hn
          rw [List.count_append] at hle
          omega
      · rfl
    have hbind : (x >>= k) parts = k (x parts).1 (x parts).2 := rfl
    rw [hbind, hx.run parts hfirst, (hk _).run _ hlater, (hk _).reads _ _ hsame, unused_append]
  · intro σ τ hστ
    have hf := hx.reads σ τ fun n hn => hστ n (List.mem_append_left more hn)
    rw [hf]
    exact (hk _).reads σ τ fun n hn => hστ n (List.mem_append_right names hn)

theorem map (hx : Fills names x f) (c : α → β) :
    Fills names (x >>= fun a => Pure.pure (c a)) (fun σ => c (f σ)) := by
  have h := hx.bind fun a => pure (c a)
  rwa [List.append_nil] at h

end Fills

/-! ## Expressions -/

mutual

theorem Expr.fills (e : Expr) : Fills e.names e.fill (fun σ => e.substitute σ) :=
  match e with
  | .constant value => .pure _
  | .name n => .leaf n
  | .list items => (Expr.fills_items items).map Expr.list
  | .tuple items => (Expr.fills_items items).map Expr.tuple
  | .dict entries => (Expr.fills_entries entries).map Expr.dict
  | .attribute value attr => value.fills.map (Expr.attribute · attr)
  | .subscript value index => value.fills.bind fun v => index.fills.map (Expr.subscript v)
  | .slice lower upper step => by
    have h := (Expr.fills_optional lower).bind fun l => (Expr.fills_optional upper).bind fun u =>
      (Expr.fills_optional step).map (Expr.slice l u)
    rwa [← List.append_assoc] at h
  | .call func args => func.fills.bind fun f => (Expr.fills_arguments args).map (Expr.call f)
  | .binary op left right => left.fills.bind fun l => right.fills.map (Expr.binary op l)
  | .unary op operand => operand.fills.map (Expr.unary op)
  | .logic op left right => left.fills.bind fun l => right.fills.map (Expr.logic op l)
  | .compare left comparisons =>
    left.fills.bind fun l => (Expr.fills_comparisons comparisons).map (Expr.compare l)
  | .conditional test body orelse => by
    have h := test.fills.bind fun t => body.fills.bind fun b => orelse.fills.map (Expr.conditional t b)
    rwa [← List.append_assoc] at h
  | .listComp element clauses =>
    element.fills.bind fun e => (Expr.fills_clauses clauses).map (Expr.listComp e)
  | .generator element clauses =>
    element.fills.bind fun e => (Expr.fills_clauses clauses).map (Expr.generator e)
  | .dictComp key value clauses => by
    have h := key.fills.bind fun k => value.fills.bind fun v =>
      (Expr.fills_clauses clauses).map (Expr.dictComp k v)
    rwa [← List.append_assoc] at h

theorem Expr.fills_optional (e : Option Expr) :
    Fills (Expr.namesOfOptional e) (Expr.fillOptional e) (fun σ => Expr.substituteOptional σ e) :=
  match e with
  | none => .pure _
  | some e => e.fills.map some

theorem Expr.fills_items (items : List Expr) :
    Fills (Expr.namesOfItems items) (Expr.fillItems items)
      (fun σ => Expr.substituteItems σ items) :=
  match items with
  | [] => .pure _
  | item :: rest => item.fills.bind fun e => (Expr.fills_items rest).map (e :: ·)

theorem Expr.fills_entries (entries : List (Expr × Expr)) :
    Fills (Expr.namesOfEntries entries) (Expr.fillEntries entries)
      (fun σ => Expr.substituteEntries σ entries) :=
  match entries with
  | [] => .pure _
  | (key, value) :: rest => by
    have h := key.fills.bind fun k => value.fills.bind fun v =>
      (Expr.fills_entries rest).map ((k, v) :: ·)
    rwa [← List.append_assoc] at h

theorem Argument.fills (arg : Argument) :
    Fills arg.names arg.fill (fun σ => arg.substitute σ) :=
  match arg with
  | .positional value => value.fills.map Argument.positional
  | .keyword n value => value.fills.map (Argument.keyword n)
  | .unpack items => items.fills.map Argument.unpack
  | .unpackKeywords entries => entries.fills.map Argument.unpackKeywords

theorem Expr.fills_arguments (args : List Argument) :
    Fills (Expr.namesOfArguments args) (Expr.fillArguments args)
      (fun σ => Expr.substituteArguments σ args) :=
  match args with
  | [] => .pure _
  | arg :: rest => arg.fills.bind fun a => (Expr.fills_arguments rest).map (a :: ·)

theorem Expr.fills_comparisons (comparisons : List (CompareOp × Expr)) :
    Fills (Expr.namesOfComparisons comparisons) (Expr.fillComparisons comparisons)
      (fun σ => Expr.substituteComparisons σ comparisons) :=
  match comparisons with
  | [] => .pure _
  | (op, right) :: rest =>
    right.fills.bind fun r => (Expr.fills_comparisons rest).map ((op, r) :: ·)

theorem Expr.fills_clauses (clauses : List Clause) :
    Fills (Expr.namesOfClauses clauses) (Expr.fillClauses clauses)
      (fun σ => Expr.substituteClauses σ clauses) :=
  match clauses with
  | [] => .pure _
  | ⟨target, iter, conditions⟩ :: rest => by
    have h := iter.fills.bind fun i => (Expr.fills_items conditions).bind fun cs =>
      (Expr.fills_clauses rest).map (⟨target, i, cs⟩ :: ·)
    rwa [← List.append_assoc] at h

end

/-- Filling is replacement, where no name with a filling occurs twice. -/
theorem Expr.fill_eq_substitute {e : Expr} {parts : Entries String Expr} (h : Once e.names parts) :
    (e.fill.run parts).1 = e.substitute fun n => parts.lookup n := by
  have hrun : e.fill.run parts = _ := e.fills.run parts h
  rw [hrun]

end ComponentMarkup
