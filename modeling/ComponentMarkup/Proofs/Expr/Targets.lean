import ComponentMarkup.Proofs.Expr.Leaving

/-!
# Targets of `for` clauses

A target is written as a name, or as targets with commas between them in parentheses or brackets.
Which tuples it means is a matter of `loneInBrackets`: what becomes of a lone target in brackets.
-/

namespace ComponentMarkup

open ComponentMarkup.Parser

mutual

/-- A target as it is written. -/
inductive TargetForm where
  | name (n : String)
  | parens (items : TargetForms)
  | brackets (items : TargetForms)

/-- One target or several, with commas between them, and perhaps one after the last. -/
inductive TargetForms where
  | last (item : TargetForm) (comma : Bool)
  | cons (item : TargetForm) (items : TargetForms)

end

mutual

/-- The tokens of a target. -/
def TargetForm.tokens : TargetForm → List Token
  | .name n => [.name n]
  | .parens items => .symbol .lparen :: items.tokens ++ [.symbol .rparen]
  | .brackets items => .symbol .lbracket :: items.tokens ++ [.symbol .rbracket]

/-- The tokens of targets with commas. -/
def TargetForms.tokens : TargetForms → List Token
  | .last item comma => item.tokens ++ if comma then [.symbol .comma] else []
  | .cons item items => item.tokens ++ .symbol .comma :: items.tokens

end

mutual

/-- The target that is meant. Targets with commas make a tuple, and a lone one in parentheses stands
for itself. -/
def TargetForm.target (loneInBrackets : Target → Target) : TargetForm → Target
  | .name n => .name n
  | .parens items => items.whole loneInBrackets id
  | .brackets items => items.whole loneInBrackets loneInBrackets

/-- All targets together. -/
def TargetForms.whole (loneInBrackets lone : Target → Target) : TargetForms → Target
  | .last item comma =>
    let target := item.target loneInBrackets
    if comma then .tuple [target] else lone target
  | .cons item items => .tuple (item.target loneInBrackets :: items.targets loneInBrackets)

/-- The targets one by one. -/
def TargetForms.targets (loneInBrackets : Target → Target) : TargetForms → List Target
  | .last item _ => [item.target loneInBrackets]
  | .cons item items => item.target loneInBrackets :: items.targets loneInBrackets

end

/-- What the parser makes of a lone target in brackets: a tuple, unless it is one already. -/
def Target.toTuple : Target → Target
  | .name n => .tuple [.name n]
  | .tuple items => .tuple items

/-- What ends targets with commas. -/
def targetEnds : List Symbol :=
  [.in, .rparen, .rbracket]

variable {d : Nat} {us : List Token} {s : Symbol}

/-- The first token of a target. -/
theorem TargetForm.tokens_head (t : TargetForm) :
    ∃ x rest, t.tokens = x :: rest ∧ ∀ s ∈ targetEnds, x ≠ .symbol s := by
  cases t with
  | name n => exact ⟨_, _, by rw [tokens], by simp⟩
  | parens items => exact ⟨_, _, by rw [tokens]; rfl, by simp [targetEnds]⟩
  | brackets items => exact ⟨_, _, by rw [tokens]; rfl, by simp [targetEnds]⟩

theorem TargetForm.length_pos (t : TargetForm) : 0 < t.tokens.length := by
  obtain ⟨x, rest, htokens, -⟩ := t.tokens_head
  rw [htokens]
  exact Nat.succ_pos _

theorem TargetForms.whole_toTuple (f : Target → Target) (items : TargetForms) :
    items.whole f Target.toTuple = (items.whole f id).toTuple := by
  cases items with
  | last item comma => cases comma <;> simp [whole, Target.toTuple]
  | cons item items => simp [whole, Target.toTuple]

theorem TargetForms.whole_of_many {f lone : Target → Target} {items : TargetForms} {t u : Target}
    {targets : List Target} (h : items.targets f = t :: u :: targets) :
    items.whole f lone = .tuple (t :: u :: targets) := by
  cases items with
  | last item comma => simp [TargetForms.targets] at h
  | cons item items =>
    rw [TargetForms.targets] at h
    rw [TargetForms.whole, h]

theorem leaves_noTargets (hd : 0 < d) (hs : s ∈ targetEnds) (comma : Bool) :
    Leaves (moreTargets d) ((if comma then [.symbol .comma] else []) ++ .symbol s :: us) []
      (.symbol s :: us) := by
  obtain ⟨k, rfl⟩ : ∃ k, d = k + 1 := ⟨d - 1, by omega⟩
  simp only [targetEnds, List.mem_cons, List.not_mem_nil, or_false] at hs
  rw [moreTargets]
  cases comma with
  | true =>
    refine Leaves.eatNext (Leaves.peek ?_)
    rcases hs with rfl | rfl | rfl <;> exact Leaves.pure [] _
  | false =>
    refine Leaves.eatOther ?_ (Leaves.pure [] _)
    rcases hs with rfl | rfl | rfl <;> simp

theorem leaves_nextTarget {t : TargetForm} {target : Target} {targets : List Target} {vs : List Token}
    (ht : Leaves (Parser.target d) (t.tokens ++ us) target us)
    (hmore : Leaves (moreTargets d) us targets vs) :
    Leaves (moreTargets (d + 1)) (.symbol .comma :: (t.tokens ++ us)) (target :: targets) vs := by
  obtain ⟨x, rest, htokens, hx⟩ := t.tokens_head
  rw [moreTargets]
  refine Leaves.eatNext (Leaves.peek ?_)
  rw [htokens] at ht ⊢
  rw [List.cons_append, List.head?_cons]
  split
  · next heq => exact absurd (Option.some.inj heq) (hx .in (by decide))
  · next heq => exact absurd (Option.some.inj heq) (hx .rparen (by decide))
  · next heq => exact absurd (Option.some.inj heq) (hx .rbracket (by decide))
  · exact ht.bind hmore.map

mutual

theorem leaves_target (t : TargetForm) {d : Nat} {us : List Token}
    (hd : 2 * t.tokens.length ≤ d) :
    Leaves (target d) (t.tokens ++ us) (t.target Target.toTuple) us := by
  have hpos := t.length_pos
  obtain ⟨k, rfl⟩ : ∃ k, d = k + 1 := ⟨d - 1, by omega⟩
  rw [target]
  cases t with
  | name n =>
    rw [TargetForm.tokens, TargetForm.target]
    exact Leaves.peek (Leaves.skip (Leaves.pure _ us))
  | parens items =>
    simp only [TargetForm.tokens, List.length_append, List.length_cons, List.length_nil] at hd
    simp only [TargetForm.tokens, TargetForm.target, List.append_assoc, List.cons_append,
      List.nil_append]
    refine Leaves.peek (Leaves.skip (Leaves.bind ?_ (Leaves.expect (Leaves.pure _ us))))
    exact leaves_targetList items (by decide) (by omega)
  | brackets items =>
    simp only [TargetForm.tokens, List.length_append, List.length_cons, List.length_nil] at hd
    simp only [TargetForm.tokens, TargetForm.target, List.append_assoc, List.cons_append,
      List.nil_append, TargetForms.whole_toTuple]
    refine Leaves.peek (Leaves.skip (Leaves.bind
      (leaves_targetList items (by decide) (by omega)) (Leaves.expect ?_)))
    cases items.whole Target.toTuple id with
    | name n => exact Leaves.pure _ us
    | tuple items => exact Leaves.pure _ us

theorem leaves_targetList (items : TargetForms) {d : Nat} {us : List Token} {s : Symbol}
    (hs : s ∈ targetEnds) (hd : 2 * items.tokens.length + 1 ≤ d) :
    Leaves (targetList d) (items.tokens ++ .symbol s :: us) (items.whole Target.toTuple id)
      (.symbol s :: us) := by
  obtain ⟨k, rfl⟩ : ∃ k, d = k + 1 := ⟨d - 1, by omega⟩
  rw [targetList]
  cases items with
  | last t comma =>
    have hpos := t.length_pos
    simp only [TargetForms.tokens, List.length_append] at hd
    simp only [TargetForms.tokens, TargetForms.whole, List.append_assoc]
    refine (leaves_target t (d := k) (by omega)).bind ?_
    cases comma with
    | true => exact Leaves.checkNext (leaves_noTargets (by omega) hs true).map
    | false =>
      refine Leaves.checkOther ?_ (Leaves.pure _ _)
      simp only [targetEnds, List.mem_cons, List.not_mem_nil, or_false] at hs
      rcases hs with rfl | rfl | rfl <;> simp
  | cons t items =>
    simp only [TargetForms.tokens, List.length_append, List.length_cons] at hd
    simp only [TargetForms.tokens, TargetForms.whole, List.append_assoc, List.cons_append]
    refine (leaves_target t (d := k) (by omega)).bind (Leaves.checkNext ?_)
    exact (leaves_moreTargets items hs (by omega)).map

theorem leaves_moreTargets (items : TargetForms) {d : Nat} {us : List Token} {s : Symbol}
    (hs : s ∈ targetEnds) (hd : 2 * items.tokens.length + 1 ≤ d) :
    Leaves (moreTargets d) (.symbol .comma :: (items.tokens ++ .symbol s :: us))
      (items.targets Target.toTuple) (.symbol s :: us) := by
  obtain ⟨k, rfl⟩ : ∃ k, d = k + 1 := ⟨d - 1, by omega⟩
  cases items with
  | last t comma =>
    have hpos := t.length_pos
    simp only [TargetForms.tokens, List.length_append] at hd
    simp only [TargetForms.tokens, TargetForms.targets, List.append_assoc]
    exact leaves_nextTarget (leaves_target t (by omega)) (leaves_noTargets (by omega) hs comma)
  | cons t items =>
    simp only [TargetForms.tokens, List.length_append, List.length_cons] at hd
    simp only [TargetForms.tokens, TargetForms.targets, List.append_assoc, List.cons_append]
    exact leaves_nextTarget (leaves_target t (by omega)) (leaves_moreTargets items hs (by omega))

end

/-! ## Levels -/

/-- A tuple of one target. -/
def Target.single (target : Target) : Target :=
  .tuple [target]

mutual

/-- Every lone target in brackets is a name, perhaps in parentheses. -/
def TargetForm.LoneNames : TargetForm → Prop
  | .name _ => True
  | .parens items => items.LoneNames
  | .brackets items =>
    items.LoneNames ∧ ∀ item, items = .last item false → ∃ n, item.target Target.toTuple = .name n

/-- The same of all targets. -/
def TargetForms.LoneNames : TargetForms → Prop
  | .last item _ => item.LoneNames
  | .cons item items => item.LoneNames ∧ items.LoneNames

end

mutual

theorem TargetForm.sizeOf_le (t : TargetForm) :
    sizeOf (t.target Target.toTuple) ≤ sizeOf (t.target Target.single) := by
  cases t with
  | name n => simp [TargetForm.target]
  | parens items =>
    simp only [TargetForm.target]
    exact items.sizeOf_le.1 _ _ fun _ _ h => h
  | brackets items =>
    simp only [TargetForm.target]
    refine items.sizeOf_le.1 _ _ fun x y h => ?_
    cases x <;> simp [Target.toTuple, Target.single] at h ⊢ <;> omega

theorem TargetForms.sizeOf_le (items : TargetForms) :
    (∀ lone lone' : Target → Target,
      (∀ x y, sizeOf x ≤ sizeOf y → sizeOf (lone x) ≤ sizeOf (lone' y)) →
      sizeOf (items.whole Target.toTuple lone) ≤ sizeOf (items.whole Target.single lone')) ∧
    sizeOf (items.targets Target.toTuple) ≤ sizeOf (items.targets Target.single) := by
  cases items with
  | last t comma =>
    have ht := t.sizeOf_le
    refine ⟨fun lone lone' hlone => ?_, by simpa [TargetForms.targets] using ht⟩
    cases comma with
    | true => simpa [TargetForms.whole] using ht
    | false => exact hlone _ _ ht
  | cons t items =>
    have ht := t.sizeOf_le
    have hitems := items.sizeOf_le.2
    refine ⟨fun lone lone' hlone => ?_, ?_⟩
    · simp only [TargetForms.whole, Target.tuple.sizeOf_spec, List.cons.sizeOf_spec]
      omega
    · simp only [TargetForms.targets, List.cons.sizeOf_spec]
      omega

end

/-- A lone target in brackets makes a tuple of its own exactly if it is a name. -/
theorem TargetForm.toTuple_eq_single_iff (t : TargetForm) :
    (t.target Target.toTuple).toTuple = (t.target Target.single).single ↔
      t.target Target.toTuple = t.target Target.single ∧ ∃ n, t.target Target.toTuple = .name n := by
  have hsize := t.sizeOf_le
  cases htarget : t.target Target.toTuple with
  | name n => simp [Target.toTuple, Target.single]
  | tuple items =>
    refine iff_of_false (fun heq => ?_) (by simp)
    rw [htarget] at hsize
    rw [Target.toTuple, Target.single] at heq
    have := congrArg sizeOf heq
    simp only [Target.tuple.sizeOf_spec, List.cons.sizeOf_spec, List.nil.sizeOf_spec] at this hsize
    omega

mutual

theorem TargetForm.target_eq_iff (t : TargetForm) :
    t.target Target.toTuple = t.target Target.single ↔ t.LoneNames := by
  cases t with
  | name n => simp [TargetForm.target, TargetForm.LoneNames]
  | parens items =>
    simp only [TargetForm.target, TargetForm.LoneNames]
    exact items.whole_eq_iff.1
  | brackets items =>
    simp only [TargetForm.target, TargetForm.LoneNames]
    cases items with
    | last t comma =>
      have ht := t.target_eq_iff
      cases comma with
      | true => simp [TargetForms.whole, TargetForms.LoneNames, ht]
      | false => simp [TargetForms.whole, TargetForms.LoneNames, t.toTuple_eq_single_iff, ht]
    | cons t items =>
      have ht := t.target_eq_iff
      have hitems := items.whole_eq_iff.2
      simp [TargetForms.whole, TargetForms.LoneNames, ht, hitems]

theorem TargetForms.whole_eq_iff (items : TargetForms) :
    (items.whole Target.toTuple id = items.whole Target.single id ↔ items.LoneNames) ∧
      (items.targets Target.toTuple = items.targets Target.single ↔ items.LoneNames) := by
  cases items with
  | last t comma =>
    have ht := t.target_eq_iff
    cases comma <;> simp [TargetForms.whole, TargetForms.targets, TargetForms.LoneNames, ht]
  | cons t items =>
    have ht := t.target_eq_iff
    have hitems := items.whole_eq_iff.2
    simp [TargetForms.whole, TargetForms.targets, TargetForms.LoneNames, ht, hitems]

end

end ComponentMarkup
