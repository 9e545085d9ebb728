import Mathlib
import ComponentMarkup.Eval.Builtins

/-!
# Numbering items

`enumerate` counts one further than it has items. So the items get the numbers from the start on, one
by one, as long as the number after the last one is an integer.
-/

namespace ComponentMarkup.Builtin

/-- The pairs that number items from `z` on. -/
def pairsFrom (z : Int) (items : List Value) : List Value :=
  items.mapIdx fun k item => .tuple [.int (Int64.ofInt (z + k)), item]

theorem pairsFrom_cons (z : Int) (item : Value) (items : List Value) :
    pairsFrom z (item :: items) =
      .tuple [.int (Int64.ofInt z), item] :: pairsFrom (z + 1) items := by
  have hnext : ∀ k : Nat, z + (k + 1 : Nat) = z + 1 + k := fun k => by omega
  simp only [pairsFrom, List.mapIdx_cons, hnext]
  rw [Int.natCast_zero, Int.add_zero]

/-- One step: the item gets the number, and counting goes on after it. -/
theorem numberItem_eq (i : Int64) (done : Array Value) (item : Value) :
    numberItem (i, done) item =
      if i.toInt + 1 < 2 ^ 63 then
        .ok (Int64.ofInt (i.toInt + 1), done.push (.tuple [.int i, item]))
      else .error .integerOverflow := by
  have hlow := i.le_toInt
  have hinteger : integer? (i.toInt + 1) =
      if i.toInt + 1 < 2 ^ 63 then some (Int64.ofInt (i.toInt + 1)) else none := by
    unfold integer? integerBound
    congr 1
    exact propext ⟨And.right, fun h => ⟨by omega, h⟩⟩
  rw [numberItem, hinteger]
  by_cases hnext : i.toInt + 1 < 2 ^ 63
  · simp only [if_pos hnext]
  · simp only [if_neg hnext]

/-- All steps: the items are numbered, or counting leaves the integers on the way. -/
theorem foldlM_numberItem (items : List Value) (i : Int64) (done : Array Value) :
    items.foldlM numberItem (i, done) =
      if i.toInt + items.length < 2 ^ 63 then
        .ok (Int64.ofInt (i.toInt + items.length), done ++ (pairsFrom i.toInt items).toArray)
      else .error .integerOverflow := by
  have hlow := i.le_toInt
  have hhigh := i.toInt_lt
  induction items generalizing i done with
  | nil =>
    rw [if_pos (by simpa using hhigh)]
    simp [pairsFrom, pure, Except.pure]
  | cons item items ih =>
    rw [List.foldlM_cons, numberItem_eq, pairsFrom_cons, List.length_cons]
    by_cases hnext : i.toInt + 1 < 2 ^ 63
    · have hto : (Int64.ofInt (i.toInt + 1)).toInt = i.toInt + 1 :=
        Int64.toInt_ofInt_of_le (by omega) hnext
      have hsum : i.toInt + 1 + items.length = i.toInt + (items.length + 1 : Nat) := by omega
      rw [if_pos hnext]
      change items.foldlM numberItem (Int64.ofInt (i.toInt + 1), _) = _
      rw [ih _ _ (by omega) (by omega), hto, hsum, Int64.ofInt_toInt]
      simp
    · rw [if_neg hnext, if_neg (by omega)]
      rfl

theorem call_enumerate {xs s : Value} {items : List Value} {start : Int64}
    (hxs : xs.iterate = .ok items) (hs : s.toInt? = some start) :
    Builtin.enumerate.call ⟨[xs], [("start", s)]⟩ = (numbered start items).map Value.list := by
  have hstart : s.expectInt "enumerate() start" = .ok start := by
    rw [Value.expectInt, hs]
  change (s.expectInt "enumerate() start" >>= fun start => xs.iterate >>= fun items =>
    numbered start items >>= fun out => pure (Value.list out)) = _
  rw [hstart, hxs]
  rfl

/-- `enumerate` pairs each item with its number. It overflows if a number is not an integer, but also
if the last one is the greatest integer. -/
theorem enumerate_exact {xs s : Value} {items : List Value} {start : Int64}
    (hxs : xs.iterate = .ok items) (hs : s.toInt? = some start) :
    let result := Builtin.enumerate.call ⟨[xs], [("start", s)]⟩
    if ∀ k < items.length, start.toInt + k < 2 ^ 63 - 1 then
      ∃ out : List Value, result = .ok (.list out) ∧ out.length = items.length ∧
        ∀ (k : Nat) (item : Value), items[k]? = some item →
          ∃ i : Int64, i.toInt = start.toInt + k ∧ out[k]? = some (.tuple [.int i, item])
    else ∃ err, result = .error err ∧ err.kind = .overflow := by
  have hlow := start.le_toInt
  have hhigh := start.toInt_lt
  intro result
  have hrun := foldlM_numberItem items start #[]
  split
  case isTrue hfits =>
    have hend : start.toInt + items.length < 2 ^ 63 := by
      rcases Nat.eq_zero_or_pos items.length with hnone | hsome
      · omega
      · have := hfits (items.length - 1) (by omega)
        omega
    refine ⟨pairsFrom start.toInt items, ?_, by simp [pairsFrom], fun k item hitem => ?_⟩
    · rw [if_pos hend] at hrun
      simp only [result, call_enumerate hxs hs, numbered, hrun]
      simp [bind, Except.bind, pure, Except.pure, Except.map]
    · have hk : k < items.length := (List.getElem?_eq_some_iff.mp hitem).1
      have := hfits k hk
      refine ⟨Int64.ofInt (start.toInt + k), Int64.toInt_ofInt_of_le (by omega) (by omega), ?_⟩
      simp [pairsFrom, hitem]
  case isFalse hfits =>
    have hend : ¬start.toInt + items.length < 2 ^ 63 := fun hend => hfits fun k hk => by omega
    rw [if_neg hend] at hrun
    refine ⟨.integerOverflow, ?_, rfl⟩
    simp only [result, call_enumerate hxs hs, numbered, hrun]
    rfl

/-- The numbers of two items, up to the one below the greatest integer. -/
theorem enumerate_exact_of_pair :
    ∃ out, Builtin.enumerate.call
        ⟨[.list [.none, .bool true]], [("start", .int 9223372036854775805)]⟩ = .ok (.list out) ∧
      ∃ i : Int64, i.toInt = 2 ^ 63 - 2 ∧ out[1]? = some (.tuple [.int i, .bool true]) := by
  have hexact := enumerate_exact (show (Value.list [.none, .bool true]).iterate = .ok _ from rfl)
    (show (Value.int 9223372036854775805).toInt? = some 9223372036854775805 from rfl)
  rw [if_pos (by decide)] at hexact
  obtain ⟨out, hout, -, hpairs⟩ := hexact
  exact ⟨out, hout, hpairs 1 _ rfl⟩

/-- One item with the greatest integer as its number is refused. -/
theorem greatest_number_refused :
    Builtin.enumerate.call ⟨[.list [.none]], [("start", .int Int64.maxValue)]⟩ =
      .error .integerOverflow ∧ ∀ k < [Value.none].length, Int64.maxValue.toInt + k < 2 ^ 63 := by
  exact ⟨rfl, by decide⟩

end ComponentMarkup.Builtin
