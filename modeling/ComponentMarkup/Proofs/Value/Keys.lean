import ComponentMarkup.Proofs.Value.Literals

/-!
# Keys and equality

Equality of the language compares booleans and integers as numbers, keys keep them apart. So two
values are one key if they are equal and no boolean of one faces an integer of the other; then a
dictionary cannot tell them apart, and otherwise it holds an entry for each.
-/

namespace ComponentMarkup

/-! ## Values that make keys -/

/-- Values of constants other than floats, and of tuples of such values. -/
inductive Value.IsHashable : Value → Prop where
  | none : IsHashable .none
  | bool (b : Bool) : IsHashable (.bool b)
  | int (i : Int64) : IsHashable (.int i)
  | str (s : String) : IsHashable (.str s)
  | tuple {items : List Value} : (∀ v ∈ items, IsHashable v) → IsHashable (.tuple items)

theorem Key.exists_toValues_of_forall {vs : List Value} (h : ∀ v ∈ vs, ∃ k : Key, k.toValue = v) :
    ∃ ks, Key.toValues ks = vs := by
  induction vs with
  | nil => exact ⟨[], rfl⟩
  | cons v vs ih =>
    obtain ⟨k, rfl⟩ := h v List.mem_cons_self
    obtain ⟨ks, rfl⟩ := ih fun w hw => h w (List.mem_cons_of_mem _ hw)
    exact ⟨k :: ks, rfl⟩

/-- A hashable value is the value of a key. -/
theorem Value.IsHashable.exists_key {v : Value} (h : v.IsHashable) : ∃ k : Key, k.toValue = v := by
  induction h with
  | none => exact ⟨.none, rfl⟩
  | bool b => exact ⟨.bool b, rfl⟩
  | int i => exact ⟨.int i, rfl⟩
  | str s => exact ⟨.str s, rfl⟩
  | tuple _ ih =>
    obtain ⟨ks, rfl⟩ := Key.exists_toValues_of_forall ih
    exact ⟨.tuple ks, rfl⟩

/-! ## When two values are one key -/

mutual

/-- A boolean of one value faces an integer of the other. -/
def Value.mixes (v other : Value) : Bool :=
  match v with
  | .bool _ => match other with
    | .int _ => true
    | _ => false
  | .int _ => match other with
    | .bool _ => true
    | _ => false
  | .tuple as => match other with
    | .tuple bs => Value.mixesItems as bs
    | _ => false
  | _ => false

/-- A boolean of one list faces an integer of the other. -/
def Value.mixesItems : List Value → List Value → Bool
  | a :: as, b :: bs => a.mixes b || Value.mixesItems as bs
  | _, _ => false

end

/-- Two values are equal, with booleans facing booleans and integers facing integers. -/
def Value.isOneKey (a b : Value) : Bool :=
  a.equal b && !a.mixes b

namespace Key

theorem equal_bool (a b : Bool) : (Value.bool a).equal (.bool b) = (a == b) := by
  cases a <;> cases b <;> decide

mutual

/-- The values of two keys are equal without a boolean facing an integer only if the keys are the
same. -/
theorem isOneKey_toValue : ∀ k l : Key, k.toValue.isOneKey l.toValue = (k == l)
  | .none, l => by cases l <;> rfl
  | .bool a, .bool b => by
    change ((Value.bool a).equal (.bool b) && true) = (a == b)
    rw [Bool.and_true, equal_bool]
  | .bool _, .int _ => by
    change (_ && false) = false
    rw [Bool.and_false]
  | .bool _, .none | .bool _, .str _ | .bool _, .tuple _ => rfl
  | .int a, .int b => by
    change ((a == b) && true) = (a == b)
    rw [Bool.and_true]
  | .int _, .bool _ => by
    change (_ && false) = false
    rw [Bool.and_false]
  | .int _, .none | .int _, .str _ | .int _, .tuple _ => rfl
  | .str a, .str b => by
    change ((a == b) && true) = (a == b)
    rw [Bool.and_true]
  | .str _, .none | .str _, .bool _ | .str _, .int _ | .str _, .tuple _ => rfl
  | .tuple ks, .tuple ls => isOneKey_toValues ks ls
  | .tuple _, .none | .tuple _, .bool _ | .tuple _, .int _ | .tuple _, .str _ => rfl

theorem isOneKey_toValues : ∀ ks ls : List Key,
    (Value.equalItems (toValues ks) (toValues ls) &&
      !Value.mixesItems (toValues ks) (toValues ls)) = sameItems ks ls
  | [], ls => by cases ls <;> rfl
  | _ :: _, [] => rfl
  | k :: ks, l :: ls => by
    have hhead := isOneKey_toValue k l
    have htail := isOneKey_toValues ks ls
    simp only [toValues, Value.equalItems, Value.mixesItems, sameItems]
    rw [← htail, show same k l = (k == l) from rfl, ← hhead, Value.isOneKey]
    grind

end

end Key

/-! ## Dictionaries -/

theorem Entries.lookup_insert {κ ν : Type} [BEq κ] [LawfulBEq κ] (key other : κ) (value : ν)
    (entries : Entries κ ν) :
    List.lookup other (insert key value entries) =
      if key == other then some value else List.lookup other entries := by
  split
  case isTrue h => rw [← eq_of_beq h, lookup_insert_self]
  case isFalse h => exact lookup_insert_of_ne (fun heq => h (beq_iff_eq.mpr heq.symm)) _ _

section Dictionary

variable {v : Value} {k : Key} (h : v.toKey = .ok k) (entries : List (Key × Value))
include h

theorem Value.subscript_dict : (Value.dict entries).subscript v =
    match entries.lookup k with
    | some item => .ok item
    | Option.none => .error (.missingKey k) := by
  rw [Value.subscript, h]
  rfl

theorem Value.contains_dict :
    (Value.dict entries).contains v = .ok (entries.lookup k).isSome := by
  rw [Value.contains, h]
  rfl

theorem Method.get_dict (default : Option Value) :
    Method.get.call (.dict entries) (.append .empty (v :: default.toList)) =
      .ok ((entries.lookup k).getD (default.getD .none)) := by
  cases default with
  | none =>
    change (do return (entries.lookup (← v.toKey)).getD .none : Except OperationError Value) = _
    rw [h]
    rfl
  | some default =>
    change (do return (entries.lookup (← v.toKey)).getD default : Except OperationError Value) = _
    rw [h]
    rfl

end Dictionary

/-- Two hashable values make one key if they are equal and no boolean of one faces an integer of the
other. What a dictionary holds for the one, subscripts, the test `in` and the method `get`, with or
without a default, then find with the other, and a display that gives both has one entry with the
value given last. In all other cases what is held for the one is of no account to the other, and a
display has both entries. -/
theorem Value.toKey_eq_iff_isOneKey {a b : Value} (ha : a.IsHashable) (hb : b.IsHashable) :
    ∃ k l, a.toKey = .ok k ∧ b.toKey = .ok l ∧ (k = l ↔ a.isOneKey b = true) ∧
      (∀ (entries : List (Key × Value)) (x : Value),
        (Value.dict (Entries.insert k x entries)).subscript b =
            (if a.isOneKey b then .ok x else (Value.dict entries).subscript b) ∧
          (Value.dict (Entries.insert k x entries)).contains b =
            (if a.isOneKey b then .ok true else (Value.dict entries).contains b) ∧
          ∀ default : Option Value, Method.get.call (.dict (Entries.insert k x entries))
              (.append .empty (b :: default.toList)) =
            if a.isOneKey b then .ok x
            else Method.get.call (.dict entries) (.append .empty (b :: default.toList))) ∧
      ∀ [Natives] (scope : Scope) (e f e' f' : Expr) (x y : Value), e.eval scope = pure a →
        f.eval scope = pure x → e'.eval scope = pure b → f'.eval scope = pure y →
        (Expr.dict [(e, f), (e', f')]).eval scope =
          pure (.dict (if a.isOneKey b then [(k, y)] else [(k, x), (l, y)])) := by
  obtain ⟨k, rfl⟩ := ha.exists_key
  obtain ⟨l, rfl⟩ := hb.exists_key
  have hk := Key.toKey_toValue k
  have hl := Key.toKey_toValue l
  have hone := Key.isOneKey_toValue k l
  refine ⟨k, l, hk, hl, by rw [hone, beq_iff_eq], fun entries x => ?_, ?_⟩
  · have hfound := Entries.lookup_insert k l x entries
    rw [subscript_dict hl, subscript_dict hl, contains_dict hl, contains_dict hl, hone, hfound]
    refine ⟨by cases k == l <;> rfl, by split <;> rfl, fun default => ?_⟩
    rw [Method.get_dict hl, Method.get_dict hl, hfound]
    split <;> rfl
  · intro _ scope e f e' f' x y he hf he' hf'
    have hpairs : Expr.evalEntries [(e, f), (e', f')] scope = pure [(k, x), (l, y)] := by
      simp only [Expr.evalEntries, he, hf, he', hf', pure_bind, hk, hl]
      rfl
    rw [Expr.eval, hpairs, pure_bind, hone]
    rfl

/-- The pairs `(True, 'a')` and `(1, 'a')` are equal and two keys. -/
theorem Value.toKey_eq_iff_isOneKey_of_pair :
    ∃ k l, (Value.tuple [.bool true, .str "a"]).toKey = .ok k ∧
      (Value.tuple [.int 1, .str "a"]).toKey = .ok l ∧ k ≠ l ∧
      ∀ entries x, (Value.dict (Entries.insert k x entries)).contains
        (.tuple [.int 1, .str "a"]) = (Value.dict entries).contains (.tuple [.int 1, .str "a"]) := by
  have hashable : ∀ {v : Value}, v.IsHashable → (Value.tuple [v, .str "a"]).IsHashable := by
    intro v hv
    refine .tuple fun w hw => ?_
    rcases List.mem_pair.mp hw with rfl | rfl
    · exact hv
    · exact .str "a"
  have hmixed : (Value.tuple [.bool true, .str "a"]).isOneKey (.tuple [.int 1, .str "a"]) = false := by
    decide
  obtain ⟨k, l, hk, hl, hiff, hfound, _⟩ :=
    toKey_eq_iff_isOneKey (hashable (.bool true)) (hashable (.int 1))
  rw [hmixed] at hiff hfound
  refine ⟨k, l, hk, hl, ?_, fun entries x => (hfound entries x).2.1⟩
  intro heq
  exact Bool.false_ne_true (hiff.mp heq)

/-- One equals the truth value, but a dictionary with an entry for the one has none for the other,
and a display that gives both has two entries. -/
theorem Value.equal_but_not_found :
    (Value.int 1).equal (.bool true) = true ∧
      (Value.dict [(.bool true, .int 0)]).contains (.int 1) = .ok false ∧
      (Entries.ofPairs [(Key.bool true, Value.int 0), (.int 1, .int 0)]).length = 2 :=
  ⟨by decide, rfl, rfl⟩

end ComponentMarkup
