import ComponentMarkup.Eval.Basic
import ComponentMarkup.Proofs.Expr.RoundTrip

/-!
# Values that are read back from their texts

The text of a value is an expression again if the value is made of constants, lists, tuples and
dictionaries only. `Value.Written` relates such a value to the expression that its text is read as
and to the tokens in between. A value and its expression are of the same form, but for a negative
integer, which is written as the negation of a positive one; the least integer has no such form.
-/

namespace ComponentMarkup

open ComponentMarkup.Lexer

/-- Values of constants and collections, with distinct keys in dictionaries. -/
inductive Value.IsLiteral : Value → Prop where
  | none : IsLiteral .none
  | bool (b : Bool) : IsLiteral (.bool b)
  | int {i : Int64} : i.toInt ≠ -2 ^ 63 → IsLiteral (.int i)
  | str (s : String) : IsLiteral (.str s)
  | list {items : List Value} : (∀ v ∈ items, IsLiteral v) → IsLiteral (.list items)
  | tuple {items : List Value} : (∀ v ∈ items, IsLiteral v) → IsLiteral (.tuple items)
  | dict {entries : List (Key × Value)} : (entries.map Prod.fst).Nodup →
      (∀ entry ∈ entries, IsLiteral entry.1.toValue) → (∀ entry ∈ entries, IsLiteral entry.2) →
      IsLiteral (.dict entries)

/-! ## Keys -/

mutual

/-- A key is written as the value that it stands for. -/
theorem Key.repr_eq : ∀ k : Key, k.repr = k.toValue.repr
  | .none | .bool _ | .int _ | .str _ => rfl
  | .tuple items => by
    rw [Key.repr, Key.toValue, Value.repr, Key.reprItems_eq items, Key.length_toValues]

theorem Key.reprItems_eq : ∀ ks : List Key, Key.reprItems ks = Value.reprItems (Key.toValues ks)
  | [] => rfl
  | [k] => Key.repr_eq k
  | k :: k' :: ks => by
    have hmore := Key.reprItems_eq (k' :: ks)
    rw [Key.toValues] at hmore
    rw [Key.reprItems, Key.toValues, Key.toValues, Value.reprItems, Key.repr_eq k, hmore]
    all_goals simp

theorem Key.length_toValues : ∀ ks : List Key, ks.length = (Key.toValues ks).length
  | [] => rfl
  | k :: ks => by
    rw [Key.toValues, List.length_cons, List.length_cons, Key.length_toValues ks]

end

mutual

theorem Key.toKey_toValue : ∀ k : Key, k.toValue.toKey = .ok k
  | .none | .bool _ | .int _ | .str _ => rfl
  | .tuple items => by
    rw [Key.toValue, Value.toKey, Key.toKeys_toValues items]
    rfl

theorem Key.toKeys_toValues : ∀ ks : List Key, Value.toKeys (Key.toValues ks) = .ok ks
  | [] => rfl
  | k :: ks => by
    rw [Key.toValues, Value.toKeys, Key.toKey_toValue k, Key.toKeys_toValues ks]
    rfl

end

/-! ## Entries -/

namespace Entries

variable {κ ν : Type} [BEq κ] [LawfulBEq κ] {entries : Entries κ ν}

theorem insert_of_not_mem {key : κ} (value : ν) (h : key ∉ entries.map Prod.fst) :
    insert key value entries = entries ++ [(key, value)] := by
  induction entries with
  | nil => rfl
  | cons entry rest ih =>
    rw [List.map_cons, List.mem_cons, not_or] at h
    have hne : (entry.1 == key) = false := beq_false_of_ne fun heq => h.1 heq.symm
    simp only [insert, hne, ih h.2, List.cons_append]
    rfl

theorem insertAll_of_nodup {more : Entries κ ν} (h : ((entries ++ more).map Prod.fst).Nodup) :
    insertAll entries more = entries ++ more := by
  induction more generalizing entries with
  | nil => rw [List.append_nil]; rfl
  | cons entry more ih =>
    have hnew : entry.1 ∉ entries.map Prod.fst := by
      rw [List.map_append, List.map_cons, List.nodup_middle, List.nodup_cons, List.mem_append,
        not_or] at h
      exact h.1.1
    have hstep : insertAll entries (entry :: more) =
        insertAll (entries ++ [entry]) more := by
      rw [← insert_of_not_mem entry.2 hnew]
      rfl
    rw [hstep, ih (by simpa using h), List.append_assoc, List.singleton_append]

theorem ofPairs_of_nodup {pairs : List (κ × ν)} (h : (pairs.map Prod.fst).Nodup) :
    ofPairs pairs = pairs :=
  insertAll_of_nodup h

end Entries

/-! ## Values and the expressions that write them -/

/-- The text of a value has the tokens `ts`, which are read as the expression `e`, whose value it
is. -/
structure Value.Written (v : Value) (e : Expr) (ts : List Token) : Prop where
  item : Item e ts
  /-- No point may follow, because the value may be an integer. -/
  lexes : ∀ {rest : List Char} {tokens : List Token}, Follows (.items []) rest →
    Lexes rest tokens → Lexes (v.repr ++ rest) (ts ++ tokens)
  eval : ∀ [Natives] (scope : Scope), e.eval scope = pure v

/-- Values that are written one after another, with commas between them. -/
inductive Value.WrittenItems : List Value → List Expr → List Token → Prop where
  | nil : WrittenItems [] [] []
  | cons {v : Value} {vs : List Value} {e : Expr} {es : List Expr} {us ts : List Token} :
      v.Written e us → WrittenItems vs es ts →
      WrittenItems (v :: vs) (e :: es) (us ++ (commaBefore es ++ ts))

/-- Entries that are written one after another, with commas between them. -/
inductive Value.WrittenEntries :
    List (Key × Value) → List (Expr × Expr) → List Token → Prop where
  | nil : WrittenEntries [] [] []
  | cons {k : Key} {v : Value} {entries : List (Key × Value)} {a e : Expr}
      {es : List (Expr × Expr)} {us vs ts : List Token} :
      k.toValue.Written a us → v.Written e vs → WrittenEntries entries es ts →
      WrittenEntries ((k, v) :: entries) ((a, e) :: es)
        (us ++ .symbol .colon :: (vs ++ (commaBefore es ++ ts)))

namespace Value

variable {i : Int64} {vs : List Value} {es : List Expr} {ts : List Token}
  {entries : List (Key × Value)}

theorem reprItems_cons (v : Value) (vs : List Value) :
    reprItems (v :: vs) = v.repr ++ separator vs ++ reprItems vs := by
  cases vs with
  | nil => simp [separator, reprItems]
  | cons v' vs =>
    rw [reprItems]
    · rfl
    · simp

theorem reprEntries_cons (k : Key) (v : Value) (entries : List (Key × Value)) :
    reprEntries ((k, v) :: entries) =
      k.repr ++ [':', ' '] ++ v.repr ++ separator entries ++ reprEntries entries := by
  cases entries with
  | nil => simp [separator, reprEntries]
  | cons entry entries =>
    rw [reprEntries]
    · rfl
    · simp

namespace WrittenItems

variable {vs : List Value} {es : List Expr} {ts : List Token}

theorem isEmpty_eq (h : WrittenItems vs es ts) : vs.isEmpty = es.isEmpty := by
  cases h <;> rfl

theorem length_eq (h : WrittenItems vs es ts) : vs.length = es.length := by
  induction h with
  | nil => rfl
  | cons _ _ ih => rw [List.length_cons, List.length_cons, ih]

theorem rereads (h : WrittenItems vs es ts) : Rereads (.items es) ts := by
  induction h with
  | nil => exact rereads_itemsNil
  | cons hv _ ih => exact rereads_itemsCons hv.item ih

theorem lexes (h : WrittenItems vs es ts) {rest : List Char} {tokens : List Token}
    (hrest : Follows (.items []) rest) (hlex : Lexes rest tokens) :
    Lexes (reprItems vs ++ rest) (ts ++ tokens) := by
  induction h with
  | nil => exact hlex
  | @cons v vs e es us ts hv hvs ih =>
    have hnext : Follows (.items []) (separator vs ++ (reprItems vs ++ rest)) :=
      follows_separator vs (fun hnil => by rw [hnil]; rfl) hrest
    have hcomma : commaBefore es = commaBefore vs := by
      rw [commaBefore, commaBefore, hvs.isEmpty_eq]
    rw [reprItems_cons, hcomma]
    simp only [List.append_assoc]
    exact hv.lexes hnext (lexes_separator vs ih)

theorem evalAll [Natives] (h : WrittenItems vs es ts) (scope : Scope) :
    Expr.evalAll es scope = pure vs := by
  induction h with
  | nil => rfl
  | cons hv _ ih => rw [Expr.evalAll, hv.eval, ih, pure_bind, pure_bind]

end WrittenItems

namespace WrittenEntries

variable {entries : List (Key × Value)} {es : List (Expr × Expr)} {ts : List Token}

theorem isEmpty_eq (h : WrittenEntries entries es ts) : entries.isEmpty = es.isEmpty := by
  cases h <;> rfl

theorem rereads (h : WrittenEntries entries es ts) : Rereads (.entries es) ts := by
  induction h with
  | nil => exact rereads_entriesNil
  | cons hk hv _ ih => exact rereads_entriesCons hk.item hv.item ih

theorem lexes (h : WrittenEntries entries es ts) {rest : List Char} {tokens : List Token}
    (hrest : Follows (.items []) rest) (hlex : Lexes rest tokens) :
    Lexes (reprEntries entries ++ rest) (ts ++ tokens) := by
  induction h with
  | nil => exact hlex
  | @cons k v entries a e es us vs ts hk hv hentries ih =>
    have hnext : Follows (.items []) (separator entries ++ (reprEntries entries ++ rest)) :=
      follows_separator entries (fun hnil => by rw [hnil]; rfl) hrest
    have hcomma : commaBefore es = commaBefore entries := by
      rw [commaBefore, commaBefore, hentries.isEmpty_eq]
    rw [reprEntries_cons, hcomma, Key.repr_eq]
    simp only [List.append_assoc, List.cons_append, List.nil_append]
    refine hk.lexes (follows_cons (by decide)) (lexes_mark (by decide) ?_)
    exact lexes_blank (hv.lexes hnext (lexes_separator entries ih))

theorem evalEntries [Natives] (h : WrittenEntries entries es ts) (scope : Scope) :
    Expr.evalEntries es scope = pure entries := by
  induction h with
  | nil => rfl
  | @cons k _ _ _ _ _ _ _ _ hk hv _ ih =>
    rw [Expr.evalEntries, hk.eval, hv.eval, ih, pure_bind, Key.toKey_toValue]
    rfl

end WrittenEntries

/-! ## Constants -/

theorem written_none : Value.none.Written (.constant .none) [.symbol .none] := by
  refine ⟨Operand.item (rereads_alone rfl), fun hrest hlex => ?_, fun _ => rfl⟩
  exact lexes_keyword (s := .none) (by decide) hrest.1 hlex

theorem written_bool (b : Bool) : (Value.bool b).Written (.constant (.bool b))
    [.symbol (if b then .true else .false)] := by
  cases b with
  | false =>
    refine ⟨Operand.item (rereads_alone rfl), fun hrest hlex => ?_, fun _ => rfl⟩
    exact lexes_keyword (s := .false) (by decide) hrest.1 hlex
  | true =>
    refine ⟨Operand.item (rereads_alone rfl), fun hrest hlex => ?_, fun _ => rfl⟩
    exact lexes_keyword (s := .true) (by decide) hrest.1 hlex

theorem written_str (s : String) : (Value.str s).Written (.str s) [.str s] := by
  refine ⟨Operand.item (rereads_str s), fun hrest hlex => ?_, fun _ => rfl⟩
  exact lexes_quoted s hrest.1 hlex

theorem written_nonneg (hi : 0 ≤ i.toInt) :
    (Value.int i).Written (.constant (.int i)) [.int i] := by
  refine ⟨Operand.item (rereads_alone rfl), fun hrest hlex => ?_, fun _ => rfl⟩
  exact lexes_int hi hrest.1 hrest.2 hlex

/-- All integers but the least have a negative. -/
theorem toInt_neg_of_ne (hi : i.toInt ≠ -2 ^ 63) : (-i).toInt = -i.toInt := by
  have hlow := i.le_toInt
  have hhigh := i.toInt_lt
  rw [Int64.toInt_neg]
  exact Int.bmod_eq_of_le (by omega) (by omega)

theorem integerText_of_neg (hlow : i.toInt ≠ -2 ^ 63) (hneg : i.toInt < 0) :
    integerText i = '-' :: integerText (-i) := by
  obtain ⟨n, hn⟩ := Int.eq_negSucc_of_lt_zero hneg
  rw [integerText, integerText, toInt_neg_of_ne hlow, hn]
  show ("-" ++ (n + 1).repr).toList = '-' :: (n + 1).repr.toList
  rw [String.toList_append]
  rfl

theorem written_neg (hlow : i.toInt ≠ -2 ^ 63) (hneg : i.toInt < 0) :
    (Value.int i).Written (.unary .neg (.constant (.int (-i)))) [.symbol .minus, .int (-i)] := by
  have hpos : 0 ≤ (-i).toInt := by
    rw [toInt_neg_of_ne hlow]
    omega
  have hsigned : Item (.unary .neg (.constant (.int (-i)))) [.symbol .minus, .int (-i)] :=
    Operand.signed (rereads_alone rfl) (by decide)
  refine ⟨hsigned, fun {rest tokens} hrest hlex => ?_, fun scope => ?_⟩
  · rw [Value.repr, integerText_of_neg hlow hneg]
    exact lexes_mark (by decide) ((written_nonneg hpos).lexes hrest hlex)
  · have hvalue : checkedInt (-(-i).toInt) = .ok (.int i) := by
      have hle := i.le_toInt
      rw [toInt_neg_of_ne hlow, neg_neg, checkedInt, integer?,
        if_pos (by simp only [integerBound]; omega), Int64.ofInt_toInt]
    rw [Expr.eval, (written_nonneg hpos).eval, pure_bind]
    show liftM (checkedInt (-(-i).toInt)) = _
    rw [hvalue]
    rfl

theorem exists_written_int (hlow : i.toInt ≠ -2 ^ 63) : ∃ e ts, (Value.int i).Written e ts := by
  by_cases hi : 0 ≤ i.toInt
  · exact ⟨_, _, written_nonneg hi⟩
  · exact ⟨_, _, written_neg hlow (by omega)⟩

/-! ## Collections -/

theorem WrittenItems.list (h : WrittenItems vs es ts) :
    (Value.list vs).Written (.list es) (.symbol .lbracket :: ts ++ [.symbol .rbracket]) := by
  refine ⟨?_, fun {rest tokens} _ hlex => ?_, fun scope => ?_⟩
  · cases h with
    | nil => exact Operand.item rereads_emptyList
    | cons hv hvs => exact Operand.item (rereads_list hv.item hvs.rereads)
  · have hclose := lexes_mark (c := ']') (s := .rbracket) (by decide) hlex
    rw [Value.repr]
    simp only [List.append_assoc, List.cons_append, List.nil_append]
    exact lexes_mark (by decide) (h.lexes (follows_cons (by decide)) hclose)
  · rw [Expr.eval, h.evalAll, pure_bind]

theorem WrittenItems.tuple (h : WrittenItems vs es ts) :
    (Value.tuple vs).Written (.tuple es)
      (.symbol .lparen :: (ts ++ loneComma es) ++ [.symbol .rparen]) := by
  refine ⟨?_, fun {rest tokens} _ hlex => ?_, fun scope => ?_⟩
  · cases h with
    | nil => exact Operand.item rereads_emptyTuple
    | cons hv hvs => exact Operand.item (rereads_tuple hv.item hvs.rereads)
  · have hcomma : loneComma es = loneComma vs := by rw [loneComma, loneComma, h.length_eq]
    have hclose := lexes_loneText vs (lexes_close hlex)
    have hnext : Follows (.items []) (loneText vs ++ ')' :: rest) :=
      follows_loneText vs (by decide) (by decide)
    have hrepr : (Value.tuple vs).repr = '(' :: (reprItems vs ++ loneText vs ++ [')']) := by
      rw [Value.repr]
      rfl
    rw [hrepr, hcomma]
    simp only [List.append_assoc, List.cons_append, List.nil_append]
    exact lexes_mark (by decide) (h.lexes hnext hclose)
  · rw [Expr.eval, h.evalAll, pure_bind]

theorem WrittenEntries.dict {es : List (Expr × Expr)} (h : WrittenEntries entries es ts)
    (hkeys : (entries.map Prod.fst).Nodup) :
    (Value.dict entries).Written (.dict es) (.symbol .lbrace :: ts ++ [.symbol .rbrace]) := by
  refine ⟨?_, fun {rest tokens} _ hlex => ?_, fun scope => ?_⟩
  · cases h with
    | nil => exact Operand.item rereads_emptyDict
    | cons hk hv hentries => exact Operand.item (rereads_dict hk.item hv.item hentries.rereads)
  · have hclose := lexes_mark (c := '\x7d') (s := .rbrace) (by decide) hlex
    rw [Value.repr]
    simp only [List.append_assoc, List.cons_append, List.nil_append]
    exact lexes_mark (by decide) (h.lexes (follows_cons (by decide)) hclose)
  · rw [Expr.eval, h.evalEntries, pure_bind, Entries.ofPairs_of_nodup hkeys]

theorem exists_writtenItems (h : ∀ v ∈ vs, ∃ e ts, v.Written e ts) :
    ∃ es ts, WrittenItems vs es ts := by
  induction vs with
  | nil => exact ⟨[], [], .nil⟩
  | cons v vs ih =>
    obtain ⟨e, us, hv⟩ := h v List.mem_cons_self
    obtain ⟨es, ts, hvs⟩ := ih fun w hw => h w (List.mem_cons_of_mem _ hw)
    exact ⟨_, _, .cons hv hvs⟩

theorem exists_writtenEntries (hkeys : ∀ entry ∈ entries, ∃ e ts, entry.1.toValue.Written e ts)
    (hvalues : ∀ entry ∈ entries, ∃ e ts, entry.2.Written e ts) :
    ∃ es ts, WrittenEntries entries es ts := by
  induction entries with
  | nil => exact ⟨[], [], .nil⟩
  | cons entry entries ih =>
    obtain ⟨a, us, hk⟩ := hkeys entry List.mem_cons_self
    obtain ⟨e, vs, hv⟩ := hvalues entry List.mem_cons_self
    obtain ⟨es, ts, hentries⟩ := ih (fun other hmem => hkeys other (List.mem_cons_of_mem _ hmem))
      fun other hmem => hvalues other (List.mem_cons_of_mem _ hmem)
    exact ⟨_, _, .cons hk hv hentries⟩

theorem IsLiteral.exists_written {v : Value} (h : v.IsLiteral) : ∃ e ts, v.Written e ts := by
  induction h with
  | none => exact ⟨_, _, written_none⟩
  | bool b => exact ⟨_, _, written_bool b⟩
  | int hlow => exact exists_written_int hlow
  | str s => exact ⟨_, _, written_str s⟩
  | list _ ih =>
    obtain ⟨es, ts, hitems⟩ := exists_writtenItems ih
    exact ⟨_, _, hitems.list⟩
  | tuple _ ih =>
    obtain ⟨es, ts, hitems⟩ := exists_writtenItems ih
    exact ⟨_, _, hitems.tuple⟩
  | dict hdistinct _ _ ihkeys ihvalues =>
    obtain ⟨es, ts, hentries⟩ := exists_writtenEntries ihkeys ihvalues
    exact ⟨_, _, hentries.dict hdistinct⟩

/-- The text of a literal value is parsed as an expression that has this value without any
bindings. -/
theorem IsLiteral.evaluate_repr {v : Value} (h : v.IsLiteral) :
    ∃ e, Expr.parse v.repr = .ok e ∧
      ∀ [Natives] (next : Identity), e.evaluate [] next = .ok (v, next) := by
  obtain ⟨e, ts, hwritten⟩ := h.exists_written
  have hlex : Lexes v.repr ts := by
    simpa using hwritten.lexes (follows_nil _) Lexes.nil
  refine ⟨e, Expr.parse_of_item hlex hwritten.item, fun next => ?_⟩
  rw [Expr.evaluate, hwritten.eval]
  rfl

/-- Negative numbers, quotes of both kinds and a tuple of one item, as parts of keys and values. -/
theorem IsLiteral.evaluate_repr_of_nested : ∃ v : Value,
    v.repr = "\x7b(-1, None): [('é\\'\"',), -7], True: \x7b\x7d, 1: ()\x7d".toList ∧ v.IsLiteral ∧
      ∃ e, Expr.parse v.repr = .ok e ∧
        ∀ [Natives] (next : Identity), e.evaluate [] next = .ok (v, next) := by
  let v : Value := .dict [(.tuple [.int (-1), .none], .list [.tuple [.str "é'\""], .int (-7)]),
    (.bool true, .dict []), (.int 1, .tuple [])]
  have hitem : Value.IsLiteral (.list [.tuple [.str "é'\""], .int (-7)]) := by
    refine .list (List.forall_mem_cons.mpr ⟨.tuple ?_, List.forall_mem_singleton.mpr ?_⟩)
    · exact List.forall_mem_singleton.mpr (.str _)
    · exact .int (by decide)
  have hkey : Value.IsLiteral (.tuple [.int (-1), .none]) :=
    .tuple (List.forall_mem_cons.mpr ⟨.int (by decide), List.forall_mem_singleton.mpr .none⟩)
  have hv : v.IsLiteral := by
    refine .dict (by simp) ?_ ?_
    · simp only [List.forall_mem_cons]
      exact ⟨hkey, .bool true, .int (by decide), List.forall_mem_nil _⟩
    · simp only [List.forall_mem_cons]
      exact ⟨hitem, .dict List.nodup_nil (List.forall_mem_nil _) (List.forall_mem_nil _),
        .tuple (List.forall_mem_nil _), List.forall_mem_nil _⟩
  exact ⟨v, by decide +kernel, hv, IsLiteral.evaluate_repr hv⟩

end Value

end ComponentMarkup
