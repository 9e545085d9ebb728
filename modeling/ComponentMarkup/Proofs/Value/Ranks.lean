import Mathlib
import ComponentMarkup.Value.Compare

/-!
# Ranks of values

Values without floats have a *rank*, a list that is ordered lexicographically: their constants in
turn, with a part for each sequence that begins and the least part where it ends. Equal values are
those of the same rank (`Value.IsPlain.equal_iff`). Values have an order if the first parts in which
their ranks differ are of one level, and it is that of their ranks
(`Value.IsPlain.compare?_eq_some_iff`). So the laws of equality and order are those of lists of parts
(`Value.IsPlain.order_laws`).

Sequences are compared up to the first items that are not equal. So the induction is about values
with more behind them: unequal values have ranks that differ, and are ordered, whatever follows.
-/

namespace ComponentMarkup

variable {o : Ordering} {a b : Value} {r r' : List RankPart} {x y : RankPart}

/-- Values of constants other than floats, and of lists and tuples of such values. -/
inductive Value.IsPlain : Value → Prop where
  | none : IsPlain .none
  | bool (b : Bool) : IsPlain (.bool b)
  | int (i : Int64) : IsPlain (.int i)
  | str (s : String) : IsPlain (.str s)
  | list {items : List Value} : (∀ v ∈ items, IsPlain v) → IsPlain (.list items)
  | tuple {items : List Value} : (∀ v ∈ items, IsPlain v) → IsPlain (.tuple items)

/-- What a rank is made of: numbers, texts, signs for other kinds of values and, below all of them,
the end of a sequence. -/
abbrev RankPart := WithBot (ℤ ⊕ₗ (String ⊕ₗ ℕ))

namespace RankPart

/-- The part of a number. -/
def number (z : ℤ) : RankPart :=
  ((toLex (.inl z) : ℤ ⊕ₗ (String ⊕ₗ ℕ)) : RankPart)

/-- The part of a text. -/
def text (s : String) : RankPart :=
  ((toLex (.inr (toLex (.inl s))) : ℤ ⊕ₗ (String ⊕ₗ ℕ)) : RankPart)

/-- The part that tells a kind of values. -/
def sign (k : ℕ) : RankPart :=
  ((toLex (.inr (toLex (.inr k))) : ℤ ⊕ₗ (String ⊕ₗ ℕ)) : RankPart)

/-- The levels of the parts. Only numbers and texts share one with others. -/
def level (x : RankPart) : ℕ :=
  Option.elim x 0 fun part =>
    Sum.elim (fun _ => 1) (fun other => Sum.elim (fun _ => 2) (3 + ·) (ofLex other)) (ofLex part)

/-- A part comes before another of its level, and the end of a sequence before all of them. -/
def Below (x y : RankPart) : Prop :=
  x < y ∧ (x = ⊥ ∨ x.level = y.level)

instance : Std.Irrefl Below :=
  ⟨fun _ h => lt_irrefl _ h.1⟩

theorem Below.trans {z : RankPart} (hxy : Below x y) (hyz : Below y z) : Below x z := by
  refine ⟨hxy.1.trans hyz.1, hxy.2.imp_right fun hlevel => ?_⟩
  obtain rfl | hlevel' := hyz.2
  · exact (not_lt_bot hxy.1).elim
  · exact hlevel.trans hlevel'

/-- One rank comes before another, is the same or comes after it. -/
def Compares : Ordering → List RankPart → List RankPart → Prop
  | .lt, r, r' => List.Lex Below r r'
  | .eq, r, r' => r = r'
  | .gt, r, r' => List.Lex Below r' r

theorem compares_append (o : Ordering) (p r r' : List RankPart) :
    Compares o (p ++ r) (p ++ r') ↔ Compares o r r' := by
  have hlex : ∀ r r', List.Lex Below (p ++ r) (p ++ r') ↔ List.Lex Below r r' := by
    intro r r'
    induction p with
    | nil => rfl
    | cons x p ih => rw [List.cons_append, List.cons_append, List.lex_cons_iff, ih]
  cases o with
  | lt => exact hlex r r'
  | eq => exact List.append_right_inj p
  | gt => exact hlex r' r

theorem compares_swap : Compares o.swap r r' ↔ Compares o r' r := by
  cases o with
  | lt | gt => rfl
  | eq => exact eq_comm

/-- A rank that comes before another is less. -/
theorem Compares.compares (h : Compares o r r') : o.Compares r r' := by
  have hlt : ∀ r r', List.Lex Below r r' → r < r' := List.Lex.imp fun _ _ h => h.1
  cases o with
  | lt => exact hlt _ _ h
  | eq => exact h
  | gt => exact hlt _ _ h

theorem compares_cons (hne : x ≠ y) :
    Compares o (x :: r) (y :: r') ↔ o = .lt ∧ Below x y ∨ o = .gt ∧ Below y x := by
  have hlex : ∀ {x y : RankPart} {r r'}, x ≠ y →
      (List.Lex Below (x :: r) (y :: r') ↔ Below x y) := by
    intro x y r r' hne
    refine ⟨fun h => ?_, .rel⟩
    cases h with
    | rel h => exact h
    | cons => exact (hne rfl).elim
  cases o with
  | lt => simp [Compares, hlex hne]
  | eq => simp [Compares, hne]
  | gt => simp [Compares, hlex hne.symm]

end RankPart

mutual

/-- The rank of a value. -/
def Value.rank : Value → List RankPart
  | .bool b => [.number (if b then 1 else 0 : Int64).toInt]
  | .int i => [.number i.toInt]
  | .str s => [.text s]
  | .list items => .sign 1 :: Value.ranks items
  | .tuple items => .sign 2 :: Value.ranks items
  | _ => [.sign 0]

/-- The ranks of the items of a sequence, and its end. -/
def Value.ranks : List Value → List RankPart
  | [] => [⊥]
  | v :: rest => v.rank ++ Value.ranks rest

end

namespace Value

/-- The end of a sequence comes before every value. -/
theorem compares_bot_rank (v : Value) (o : Ordering) (s t : List RankPart) :
    RankPart.Compares o (⊥ :: t) (v.rank ++ s) ↔ o = .lt := by
  have hpart : ∀ (part : ℤ ⊕ₗ (String ⊕ₗ ℕ)) (r : List RankPart),
      RankPart.Compares o (⊥ :: t) ((part : RankPart) :: r) ↔ o = .lt := by
    intro part r
    have hlt := WithBot.bot_lt_coe part
    rw [RankPart.compares_cons hlt.ne]
    simp [RankPart.Below, hlt, hlt.not_gt]
  cases v <;> exact hpart _ _

/-- Two values are equal and compare as their ranks do, also if more follows ranks that differ. Of
equal values only `None` does not compare. -/
def Agrees : Bool → Option Ordering → List RankPart → List RankPart → Prop
  | true, order, r, r' => r = r' ∧ (r ≠ rank .none → order = some .eq)
  | false, order, r, r' =>
    ∀ s t, r ++ s ≠ r' ++ t ∧ ∀ o, order = some o ↔ RankPart.Compares o (r ++ s) (r' ++ t)

namespace Agrees

theorem append {order : Option Ordering} (h : Agrees false order r r') (p : List RankPart) :
    Agrees false order (p ++ r) (p ++ r') := by
  intro s t
  simp only [List.append_assoc, ne_eq, List.append_cancel_left_eq, RankPart.compares_append]
  exact h s t

/-- Values of ranks that differ at the start. -/
theorem of_cons {order : Option Ordering} (hne : x ≠ y)
    (h : ∀ o, order = some o ↔ o = .lt ∧ x.Below y ∨ o = .gt ∧ y.Below x) (r r' : List RankPart) :
    Agrees false order (x :: r) (y :: r') :=
  fun _ _ => ⟨fun heq => hne (List.cons.inj heq).1,
    fun o => (h o).trans (RankPart.compares_cons hne).symm⟩

/-- Values of different kinds are unequal, and do not compare. -/
theorem of_level {x y : ℤ ⊕ₗ (String ⊕ₗ ℕ)}
    (h : RankPart.level (x : RankPart) ≠ RankPart.level (y : RankPart)) (r r' : List RankPart) :
    Agrees false .none ((x : RankPart) :: r) ((y : RankPart) :: r') := by
  refine of_cons (fun heq => h (congrArg _ heq)) (fun o => ?_) r r'
  simp [RankPart.Below, h, h.symm]

theorem of_strictMono {τ : Type} [LinearOrder τ] {part : τ → RankPart} (hpart : StrictMono part)
    (hlevel : ∀ x y, (part x).level = (part y).level) {equal : Bool} {x y : τ}
    (hequal : equal = true ↔ x = y) : Agrees equal (some (compare x y)) [part x] [part y] := by
  cases equal with
  | true =>
    obtain rfl := hequal.mp rfl
    exact ⟨rfl, fun _ => congrArg some (compare_eq_iff_eq.mpr rfl)⟩
  | false =>
    have hne : x ≠ y := fun h => Bool.false_ne_true (hequal.mpr h)
    refine of_cons (hpart.injective.ne hne) (fun o => ?_) [] []
    rw [Option.some_inj, compare_iff]
    simp only [RankPart.Below, hpart.lt_iff_lt, hlevel x y, or_true, and_true]
    cases o <;> simp [Ordering.Compares, hne]

theorem numbers (i j : Int64) :
    Agrees (i == j) (some (compare i.toInt j.toInt)) [.number i.toInt] [.number j.toInt] := by
  refine of_strictMono (fun x y h => ?_) (fun _ _ => rfl) ?_
  · exact WithBot.coe_lt_coe.mpr (Sum.Lex.inl_lt_inl_iff.mpr h)
  · rw [beq_iff_eq, Int64.toInt_inj]

theorem texts (s t : String) :
    Agrees (s == t) (some (compareStrings s t)) [.text s] [.text t] := by
  have hcompare : compareStrings s t = compare s t := by
    rw [LinearOrder.compare_eq_compareOfLessAndEq, compareOfLessAndEq, compareStrings]
    simp only [beq_iff_eq]
  rw [hcompare]
  refine of_strictMono (fun x y h => ?_) (fun _ _ => rfl) beq_iff_eq
  exact WithBot.coe_lt_coe.mpr (Sum.Lex.inr_lt_inr_iff.mpr (Sum.Lex.inl_lt_inl_iff.mpr h))

/-- Sequences, behind items that are equal. -/
theorem items {as bs : List Value} (p : List RankPart)
    (h : ∀ a ∈ as, ∀ b ∈ bs, Agrees (a.equal b) (a.compare? b) a.rank b.rank) :
    Agrees (equalItems as bs) (compareItems? as bs) (p ++ ranks as) (p ++ ranks bs) := by
  have hend : ∀ (v : Value) (o : Ordering) (s s' t : List RankPart),
      RankPart.Compares o ([⊥] ++ t) (v.rank ++ s ++ s') ↔ o = .lt := by
    intro v o s s' t
    rw [List.append_assoc]
    exact compares_bot_rank v o _ _
  have hne : ∀ (v : Value) (s s' t : List RankPart), [⊥] ++ t ≠ v.rank ++ s ++ s' :=
    fun v s s' t heq => Ordering.noConfusion ((hend v .eq s s' t).mp heq)
  induction as generalizing bs p with
  | nil =>
    cases bs with
    | nil => exact ⟨rfl, fun _ => rfl⟩
    | cons b bs =>
      refine append (fun s t => ⟨hne b _ _ _, fun o => ?_⟩) p
      exact (Option.some_inj.trans eq_comm).trans (hend b o _ _ _).symm
  | cons a as ih =>
    cases bs with
    | nil =>
      refine append (fun s t => ⟨(hne a _ _ _).symm, fun o => ?_⟩) p
      rw [← RankPart.compares_swap]
      refine (Option.some_inj.trans ?_).trans (hend a o.swap _ _ _).symm
      cases o <;> simp
    | cons b bs =>
      have hhead := h a List.mem_cons_self b List.mem_cons_self
      rw [equalItems, compareItems?, ranks, ranks]
      cases hab : a.equal b with
      | true =>
        rw [hab] at hhead
        rw [if_pos rfl, Bool.true_and, hhead.1, ← List.append_assoc, ← List.append_assoc]
        exact ih _ fun x hx y hy => h x (List.mem_cons_of_mem _ hx) y (List.mem_cons_of_mem _ hy)
      | false =>
        rw [hab] at hhead
        refine append (fun s t => ?_) p
        rw [List.append_assoc, List.append_assoc]
        exact hhead _ _

end Agrees

namespace IsPlain

theorem agrees (ha : a.IsPlain) (hb : b.IsPlain) :
    Agrees (a.equal b) (a.compare? b) a.rank b.rank := by
  induction ha generalizing b with
  | none =>
    cases hb with
    | none => exact ⟨rfl, fun h => (h rfl).elim⟩
    | _ => exact .of_level (by rintro ⟨⟩) _ _
  | bool x | int i =>
    cases hb with
    | bool _ | int _ => exact .numbers _ _
    | _ => exact .of_level (by rintro ⟨⟩) _ _
  | str s =>
    cases hb with
    | str t => exact .texts s t
    | _ => exact .of_level (by rintro ⟨⟩) _ _
  | list _ ih =>
    cases hb with
    | list hbs => exact .items [.sign 1] fun a ha b hb => ih a ha (hbs b hb)
    | _ => exact .of_level (by rintro ⟨⟩) _ _
  | tuple _ ih =>
    cases hb with
    | tuple hbs => exact .items [.sign 2] fun a ha b hb => ih a ha (hbs b hb)
    | _ => exact .of_level (by rintro ⟨⟩) _ _

theorem equal_iff (ha : a.IsPlain) (hb : b.IsPlain) : a.equal b = true ↔ a.rank = b.rank := by
  have h := ha.agrees hb
  cases hequal : a.equal b with
  | true =>
    rw [hequal] at h
    simpa using h.1
  | false =>
    rw [hequal] at h
    simpa using (h [] []).1

theorem rank_ne_of_compare? (ha : a.IsPlain) (hb : b.IsPlain) (h : a.compare? b = some o) :
    a.rank ≠ rank .none ∧ b.rank ≠ rank .none := by
  constructor
  · cases ha with
    | none => cases hb <;> cases h
    | _ => rintro ⟨⟩
  · cases hb with
    | none => cases ha <;> cases h
    | _ => rintro ⟨⟩

/-- Values compare as their ranks do, and `None` does not compare. -/
theorem compare?_eq_some_iff (ha : a.IsPlain) (hb : b.IsPlain) :
    a.compare? b = some o ↔
      (a.rank ≠ rank .none ∧ b.rank ≠ rank .none) ∧ RankPart.Compares o a.rank b.rank := by
  have hagrees := ha.agrees hb
  cases hequal : a.equal b with
  | true =>
    rw [hequal] at hagrees
    obtain ⟨hrank, heq⟩ := hagrees
    refine ⟨fun h => ⟨rank_ne_of_compare? ha hb h, ?_⟩, fun h => ?_⟩
    · rw [heq (rank_ne_of_compare? ha hb h).1] at h
      cases h
      exact hrank
    · rw [heq h.1.1]
      have hcompares := h.2.compares
      rw [hrank] at hcompares
      exact congrArg some ((cmp_self_eq_eq _).symm.trans hcompares.cmp_eq)
  | false =>
    rw [hequal] at hagrees
    have hiff := (hagrees [] []).2 o
    rw [List.append_nil, List.append_nil] at hiff
    exact ⟨fun h => ⟨rank_ne_of_compare? ha hb h, hiff.mp h⟩, fun h => hiff.mpr h.2⟩

theorem compares (ha : a.IsPlain) (hb : b.IsPlain) (ho : a.compare? b = some o) :
    o.Compares a.rank b.rank :=
  ((ha.compare?_eq_some_iff hb).mp ho).2.compares

/-- A value that compares with some value compares with itself. -/
theorem compare?_self {v w : Value} (h : v.IsPlain) (hw : w.IsPlain) (hvw : (v.compare? w).isSome) :
    (v.compare? v).isSome := by
  obtain ⟨o, ho⟩ := Option.isSome_iff_exists.mp hvw
  have hnone := (rank_ne_of_compare? h hw ho).1
  exact Option.isSome_of_eq_some ((h.compare?_eq_some_iff h (o := .eq)).mpr ⟨⟨hnone, hnone⟩, rfl⟩)

/-- Equality is an equivalence relation, and the order is a strict order up to it: comparing the other
way round reverses the result, values that compare as equal are the equal ones, equal values compare
alike, and what is less than something less is less. -/
theorem order_laws {a b c : Value} (ha : a.IsPlain) (hb : b.IsPlain) (hc : c.IsPlain) :
    (a.equal a = true ∧ (a.equal b = true → b.equal a = true) ∧
      (a.equal b = true → b.equal c = true → a.equal c = true)) ∧
    b.compare? a = (a.compare? b).map Ordering.swap ∧
    (∀ o, a.compare? b = some o → (o = .eq ↔ a.equal b = true)) ∧
    (a.equal b = true → a.compare? c = b.compare? c ∧ c.compare? a = c.compare? b) ∧
    (a.compare? b = some .lt → b.compare? c = some .lt → a.compare? c = some .lt) := by
  refine ⟨⟨?_, ?_, ?_⟩, ?_, fun o ho => ?_, fun hequal => ?_, fun hab hbc => ?_⟩
  · exact (ha.equal_iff ha).mpr rfl
  · rw [ha.equal_iff hb, hb.equal_iff ha]
    exact Eq.symm
  · rw [ha.equal_iff hb, hb.equal_iff hc, ha.equal_iff hc]
    exact Eq.trans
  · refine Option.ext fun o => ?_
    have hswap : (a.compare? b).map Ordering.swap = some o ↔ a.compare? b = some o.swap := by
      rw [Option.map_eq_some_iff]
      refine ⟨?_, fun h => ⟨_, h, Ordering.swap_swap⟩⟩
      rintro ⟨o', ho', rfl⟩
      rw [ho', Ordering.swap_swap]
    rw [hswap, ha.compare?_eq_some_iff hb, hb.compare?_eq_some_iff ha, RankPart.compares_swap,
      @and_comm (a.rank ≠ _)]
  · rw [ha.equal_iff hb]
    exact (ha.compares hb ho).eq_eq
  · have hrank := (ha.equal_iff hb).mp hequal
    constructor <;> refine Option.ext fun o => ?_
    · rw [ha.compare?_eq_some_iff hc, hb.compare?_eq_some_iff hc, hrank]
    · rw [hc.compare?_eq_some_iff ha, hc.compare?_eq_some_iff hb, hrank]
  · obtain ⟨⟨hnone, -⟩, hab⟩ := (ha.compare?_eq_some_iff hb).mp hab
    obtain ⟨⟨-, hnone'⟩, hbc⟩ := (hb.compare?_eq_some_iff hc).mp hbc
    have hac : RankPart.Compares .lt a.rank c.rank := List.lex_trans RankPart.Below.trans hab hbc
    exact (ha.compare?_eq_some_iff hc).mpr ⟨⟨hnone, hnone'⟩, hac⟩

/-- Lists that differ in texts behind items that are equal across kinds, and hold what has no order. -/
theorem order_laws_of_lists :
    (Value.list [.bool true, .str "x"]).compare? (.list [.int 1, .str "y", .none]) = some .lt ∧
    (Value.list [.bool true, .str "x"]).compare? (.list [.int 1, .str "z", .tuple []]) = some .lt := by
  have hplain : ∀ (i v : Value) (s : String), i.IsPlain → v.IsPlain →
      (Value.list [i, .str s, v]).IsPlain := by
    intro i v s hi hv
    exact .list (by simpa using ⟨hi, .str s, hv⟩)
  have ha : (Value.list [.bool true, .str "x"]).IsPlain :=
    .list (by simpa using ⟨.bool true, .str "x"⟩)
  have hb := hplain (.int 1) .none "y" (.int 1) .none
  have hc := hplain (.int 1) (.tuple []) "z" (.int 1) (.tuple (by simp))
  have hfirst : (Value.list [.bool true, .str "x"]).compare? (.list [.int 1, .str "y", .none]) =
      some .lt := by decide
  exact ⟨hfirst, (order_laws ha hb hc).2.2.2.2 hfirst (by decide)⟩

end IsPlain

end Value

end ComponentMarkup
