import ComponentMarkup.Eval.Comparison
import ComponentMarkup.Eval.Methods
import ComponentMarkup.Proofs.Eval.IntegerArithmetic
import ComponentMarkup.Proofs.Eval.Progressions
import ComponentMarkup.Proofs.Text.Splitting

/-!
# Methods of strings agree

The methods of strings that look for a text in another one take the same occurrences, and they count in
characters as slices do.
-/

namespace ComponentMarkup

variable {s a b : String}

/-! ## Slices of texts -/

theorem pick_range {α : Type} (items : List α) (start count : Nat) :
    pick items ((List.range count).map (start + ·)) = (items.drop start).take count := by
  unfold pick
  induction count with
  | zero => rfl
  | succ count ih =>
    rw [List.range_succ, List.map_append, List.filterMap_append, ih, List.take_add_one,
      List.getElem?_drop]
    cases hitem : items[start + count]? <;> simp [hitem]

theorem progression_one (start : Nat) (stop : Int) :
    (progression start stop 1).map Int.toNat = (List.range (stop - start).toNat).map (start + ·) := by
  have hlength : progressionLength start stop 1 = (stop - start).toNat := by
    unfold progressionLength
    simp only [Int.one_pos, if_true, Int.natAbs_one, Nat.cast_one, Int.ediv_one]
    split <;> omega
  rw [progression, hlength, List.map_map]
  refine List.map_congr_left fun i _ => ?_
  simp only [Function.comp_apply]
  omega

/-- A slice from one place to another, neither of them counted from the end. -/
theorem slice_text {i j : Int64} (hi : 0 ≤ i.toInt) (hj : 0 ≤ j.toInt) :
    (Value.str s).slice (some i) (some j) none =
      .ok (.ofText ((s.toList.drop i.toInt.toNat).take (j.toInt - i.toInt).toNat)) := by
  have hplace : ∀ {b : Int64} (whole : Int), 0 ≤ b.toInt →
      sliceEnd s.toList.length 1 (some b) whole = (min s.toList.length b.toInt.toNat : Nat) := by
    intro b whole hb
    simp only [sliceEnd, if_neg hb.not_gt, Int.one_pos, if_true]
    omega
  have hpositions : slicePositions s.toList.length (some i) (some j) none =
      .ok ((List.range (min s.toList.length j.toInt.toNat - min s.toList.length i.toInt.toNat)).map
        (min s.toList.length i.toInt.toNat + ·)) := by
    have hstep : (sliceStep none).toInt = 1 := rfl
    rw [slicePositions_eq (by decide), hstep, sliceStart, sliceStop, hplace _ hi, hplace _ hj,
      progression_one, Int.toNat_sub]
  have hdrop : s.toList.drop (min s.toList.length i.toInt.toNat) = s.toList.drop i.toInt.toNat := by
    rcases Nat.le_total s.toList.length i.toInt.toNat with h | h
    · rw [Nat.min_eq_left h, List.drop_length, List.drop_eq_nil_of_le h]
    · rw [Nat.min_eq_right h]
  have hslice : (Value.str s).slice (some i) (some j) none =
      (slicePositions s.toList.length (some i) (some j) none).map
        fun positions => .ofText (pick s.toList positions) := rfl
  rw [hslice, hpositions, Except.map, pick_range, hdrop]
  congr 2
  rw [List.take_eq_take_iff, List.length_drop]
  omega

/-- The slice of a string that begins at a place and is as long as another string. -/
def window (s a : String) (i : Int64) : Except OperationError Value := do
  let stop ← BinaryOp.add.apply (.int i) (← Builtin.len.call ⟨[.str a], []⟩)
  (Value.str s).slice (some i) stop.toInt? none

theorem window_eq {i : Int64} (hi : 0 ≤ i.toInt) (ha : a.length < 2 ^ 63) :
    window s a i = if i.toInt + a.length < 2 ^ 63 then
      .ok (.ofText ((s.toList.drop i.toInt.toNat).take a.length)) else .error .integerOverflow := by
  have hlength : (Int64.ofNat a.length).toInt = a.length := Int64.toInt_ofNat_of_lt ha
  have hwindow : window s a i = checkedInt (i.toInt + (Int64.ofNat a.length).toInt) >>= fun stop =>
      (Value.str s).slice (some i) stop.toInt? none := rfl
  rw [hwindow, hlength]
  split
  case isTrue h =>
    have hstop : (Int64.ofInt (i.toInt + a.length)).toInt = i.toInt + a.length :=
      Int64.toInt_ofInt_of_le (by omega) h
    rw [checkedInt_of_fits ⟨by omega, h⟩]
    change (Value.str s).slice (some i) (some (Int64.ofInt (i.toInt + a.length))) none = _
    rw [slice_text hi (by omega), hstop, add_sub_cancel_left, Int.toNat_natCast]
  case isFalse h =>
    rw [checkedInt_of_not_fits fun hfits => h hfits.2]
    rfl

theorem window_eq_self_iff {i : Int64} (hi : 0 ≤ i.toInt) (ha : a.length < 2 ^ 63) :
    window s a i = .ok (.str a) ↔
      i.toInt + a.length < 2 ^ 63 ∧ a.toList <+: s.toList.drop i.toInt.toNat := by
  rw [window_eq hi ha, List.prefix_iff_eq_take, String.length_toList]
  split
  case isTrue h =>
    rw [Except.ok.injEq, Value.ofText, Value.str.injEq, ← String.toList_inj, String.toList_ofList]
    exact ⟨fun heq => ⟨h, heq.symm⟩, fun heq => heq.2.symm⟩
  case isFalse h =>
    refine ⟨fun herror => ?_, fun hfits => absurd hfits.1 h⟩
    cases herror

/-! ## Calls -/

theorem call_split (ha : a ≠ "") : Method.split.call (.str s) ⟨[.str a], []⟩ =
    .ok (.list ((Text.split a.toList s.toList).map .ofText)) := by
  have hempty : a.toList.isEmpty = false := by simpa using ha
  have hcall : Method.split.call (.str s) ⟨[.str a], []⟩ =
      if a.toList.isEmpty then .error .emptySeparator
      else .ok (.list ((Text.split a.toList s.toList).map .ofText)) := rfl
  rw [hcall, hempty]
  rfl

theorem textItems_map (pieces : List (List Char)) :
    Method.textItems (pieces.map .ofText) = .ok pieces := by
  induction pieces with
  | nil => rfl
  | cons piece pieces ih =>
    rw [List.map_cons, Value.ofText, Method.textItems, ih, String.toList_ofList]
    rfl

theorem call_join (pieces : List (List Char)) :
    Method.join.call (.str b) ⟨[.list (pieces.map .ofText)], []⟩ =
      .ok (.ofText (Text.join b.toList pieces)) := by
  change (Method.textItems (pieces.map .ofText) >>= fun texts =>
    pure (Value.ofText (Text.join b.toList texts))) = _
  rw [textItems_map]
  rfl

/-- A text is found in a string at the least place where it stands, or at -1 if it stands nowhere. -/
structure FoundAt (s a : String) (i : Int64) (found : Bool) : Prop where
  absent_iff : i = -1 ↔ found = false
  absent : found = false → ∀ j : Int64, 0 ≤ j.toInt → window s a j ≠ .ok (.str a)
  least : found = true → 0 ≤ i.toInt ∧ window s a i = .ok (.str a) ∧
    ∀ j : Int64, 0 ≤ j.toInt → j.toInt < i.toInt → ∃ t, window s a j = .ok (.str t) ∧ t ≠ a

theorem foundAt_placeOf (ha : a.toList ≠ []) (hs : s.length < 2 ^ 63) (hlength : a.length < 2 ^ 63) :
    FoundAt s a (Method.placeOf a.toList s.toList) (Text.occursIn a.toList s.toList) := by
  set i := Method.placeOf a.toList s.toList
  set found := Text.occursIn a.toList s.toList
  obtain ⟨hsome, hnone⟩ := @Text.findFrom_spec _ s.toList ha 0
  cases hfind : Text.find? a.toList s.toList with
  | none =>
    have hi : i = -1 := by simp only [i, Method.placeOf, hfind]
    have hfound : found = false := by simp only [found, Text.occursIn, hfind, Option.isSome_none]
    rw [hfound]
    refine ⟨⟨fun _ => rfl, fun _ => hi⟩, fun _ j hj h => ?_, fun h => Bool.noConfusion h⟩
    exact hnone hfind _ ((window_eq_self_iff hj hlength).mp h).2
  | some k =>
    obtain ⟨k', hk, hhere, hbefore⟩ := hsome k hfind
    obtain rfl : k = k' := by omega
    have hend : k + a.length ≤ s.length := by
      have hle := hhere.length_le
      have hpos := List.length_pos_of_ne_nil ha
      rw [List.length_drop, String.length_toList, String.length_toList] at hle
      rw [String.length_toList] at hpos
      omega
    have hi : i.toInt = k := by
      simp only [i, Method.placeOf, hfind]
      exact Int64.toInt_ofNat_of_lt (by omega)
    have hfound : found = true := by simp only [found, Text.occursIn, hfind, Option.isSome_some]
    rw [hfound]
    refine ⟨⟨fun h => ?_, fun h => Bool.noConfusion h⟩, fun h => Bool.noConfusion h,
      fun _ => ⟨by omega, ?_, ?_⟩⟩
    · rw [h] at hi
      cases hi
    · rw [window_eq_self_iff (by omega) hlength, hi]
      exact ⟨by omega, hhere⟩
    · intro j hj hlt
      have hwindow := @window_eq s a j hj hlength
      rw [if_pos (by omega)] at hwindow
      refine ⟨_, hwindow, fun heq => hbefore j.toInt.toNat (by omega) ?_⟩
      exact ((window_eq_self_iff hj hlength).mp (hwindow.trans (by rw [Value.ofText, heq]))).2

/-- For a string that is not empty, splitting at it and joining gives a string back, replacing it is to
join the pieces with something else, it occurs once less often than there are pieces, and it is found at
the least place where it stands, or at -1 if it is not in the string. -/
theorem text_methods_agree (ha : a ≠ "") :
    ∃ pieces : List Value,
      Method.split.call (.str s) ⟨[.str a], []⟩ = .ok (.list pieces) ∧
      Method.join.call (.str a) ⟨[.list pieces], []⟩ = .ok (.str s) ∧
      (∃ r, Method.replace.call (.str s) ⟨[.str a, .str b], []⟩ = .ok (.str r) ∧
        Method.join.call (.str b) ⟨[.list pieces], []⟩ = .ok (.str r)) ∧
      (pieces.length < 2 ^ 63 → ∃ n : Int64,
        Method.count.call (.str s) ⟨[.str a], []⟩ = .ok (.int n) ∧
        (Builtin.len.call ⟨[.list pieces], []⟩ >>= fun length =>
          BinaryOp.sub.apply length (.int 1)) = .ok (.int n)) ∧
      (s.length < 2 ^ 63 → a.length < 2 ^ 63 → ∃ (i : Int64) (found : Bool),
        Method.find.call (.str s) ⟨[.str a], []⟩ = .ok (.int i) ∧
        CompareOp.mem.apply (.str a) (.str s) = .ok found ∧ FoundAt s a i found) := by
  obtain ⟨first, more, htext⟩ : ∃ first more, a.toList = first :: more :=
    List.exists_cons_of_ne_nil fun h => ha (String.toList_eq_nil_iff.mp h)
  refine ⟨_, call_split ha, ?_, ?_, fun hpieces => ?_, fun hs hlength => ?_⟩
  · rw [call_join, htext, Text.join_split, Value.ofText, String.ofList_toList]
  · refine ⟨_, rfl, ?_⟩
    rw [call_join, htext, Text.join_split_eq_replace]
    rfl
  · refine ⟨_, rfl, ?_⟩
    rw [List.length_map, htext, Text.length_split] at hpieces
    change checkedInt ((Int64.ofNat (List.map Value.ofText _).length).toInt - 1) =
      .ok (.int (Int64.ofNat (Text.count a.toList s.toList)))
    rw [List.length_map, htext, Text.length_split, Int64.toInt_ofNat_of_lt hpieces,
      checkedInt_of_fits (by omega), Nat.cast_add, Nat.cast_one, add_sub_cancel_right]
    rfl
  · have hne : a.toList ≠ [] := htext ▸ List.cons_ne_nil _ _
    exact ⟨_, _, rfl, rfl, foundAt_placeOf hne hs hlength⟩

/-- A text that overlaps with itself, among characters of two bytes. -/
theorem text_methods_agree_of_overlaps :
    ∃ (pieces : List Value) (i : Int64),
      Method.split.call (.str "éaéaéa") ⟨[.str "aéa"], []⟩ = .ok (.list pieces) ∧
      Method.join.call (.str "aéa") ⟨[.list pieces], []⟩ = .ok (.str "éaéaéa") ∧
      Method.find.call (.str "éaéaéa") ⟨[.str "aéa"], []⟩ = .ok (.int i) ∧
      window "éaéaéa" "aéa" i = .ok (.str "aéa") := by
  obtain ⟨pieces, hsplit, hjoin, -, -, hfind⟩ :=
    @text_methods_agree "éaéaéa" "aéa" "" (by decide)
  obtain ⟨i, found, hi, hmem, hfound⟩ := hfind (by decide) (by decide)
  obtain rfl : true = found := Except.ok.inj hmem
  exact ⟨pieces, i, hsplit, hjoin, hi, (hfound.least rfl).2.1⟩

end ComponentMarkup
