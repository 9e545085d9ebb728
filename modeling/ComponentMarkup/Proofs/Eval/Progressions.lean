import Mathlib
import ComponentMarkup.Eval.Builtins

/-!
# Ranges, indices and slices

`range` and slices are made of arithmetic progressions. The number of their members is computed in
one go; the members are those that one finds by going on step by step until the bound is reached.
-/

namespace ComponentMarkup

variable {start stop step z : Int} {k n : Nat} {lower upper : Option Int64} {v : Value}
  {items : List Value}

/-! ## Progressions -/

/-- A number comes before another one in the direction of a step. -/
def Before (step x stop : Int) : Prop :=
  if 0 < step then x < stop else stop < x

instance (step x stop : Int) : Decidable (Before step x stop) :=
  inferInstanceAs (Decidable (if 0 < step then x < stop else stop < x))

theorem lt_progressionLength_iff (hstep : step ≠ 0) (k : Nat) :
    k < progressionLength start stop step ↔ Before step (start + k * step) stop := by
  -- With the step and the distance turned upwards both directions are one.
  have hup : ∀ {size distance : Int}, 0 < size →
      (k < (if distance ≤ 0 then 0 else ((distance - 1) / size + 1).toNat) ↔ k * size < distance) := by
    intro size distance hsize
    have hnonneg : 0 ≤ k * size := Int.mul_nonneg (Int.natCast_nonneg k) hsize.le
    split
    case isTrue h => omega
    case isFalse h =>
      have hquotient : 0 ≤ (distance - 1) / size := Int.ediv_nonneg (by omega) hsize.le
      have hle : (k : Int) ≤ (distance - 1) / size ↔ k * size ≤ distance - 1 :=
        Int.le_ediv_iff_mul_le hsize
      omega
  unfold progressionLength Before
  by_cases hpos : 0 < step
  · rw [if_pos hpos, if_pos hpos, Int.natAbs_of_nonneg hpos.le, hup hpos]
    omega
  · rw [if_neg hpos, if_neg hpos, Int.ofNat_natAbs_of_nonpos (by omega), hup (by omega), mul_neg]
    omega

theorem getElem?_progression (hstep : step ≠ 0) (k : Nat) :
    (progression start stop step)[k]? =
      if Before step (start + k * step) stop then some (start + k * step) else none := by
  unfold progression
  rw [List.getElem?_map]
  by_cases h : k < progressionLength start stop step
  · rw [List.getElem?_range h, if_pos ((lt_progressionLength_iff hstep k).mp h)]
    rfl
  · rw [if_neg (mt (lt_progressionLength_iff hstep k).mpr h), List.getElem?_eq_none (by simpa using h)]
    rfl

/-- The members of a progression that starts and ends with integers are integers. -/
theorem bounds_of_before {start stop : Int64}
    (h : Before step (start.toInt + k * step) stop.toInt) :
    -2 ^ 63 ≤ start.toInt + k * step ∧ start.toInt + k * step < 2 ^ 63 := by
  have hstart := start.le_toInt
  have hstart' := start.toInt_lt
  have hstop := stop.le_toInt
  have hstop' := stop.toInt_lt
  unfold Before at h
  split at h
  case isTrue hpos =>
    have : 0 ≤ k * step := Int.mul_nonneg (Int.natCast_nonneg k) hpos.le
    omega
  case isFalse hneg =>
    have : k * step ≤ 0 := Int.mul_nonpos_of_nonneg_of_nonpos (Int.natCast_nonneg k) (by omega)
    omega

theorem toInt_of_integer? {i : Int64} (h : integer? z = some i) : i.toInt = z := by
  unfold integer? integerBound at h
  split at h
  case isTrue hz =>
    obtain rfl := Option.some.inj h
    exact Int64.toInt_ofInt_of_le hz.1 hz.2
  case isFalse => cases h

theorem integer?_eq_none_iff : integer? z = none ↔ ¬(-2 ^ 63 ≤ z ∧ z < 2 ^ 63) := by
  unfold integer? integerBound
  split
  case isTrue hz => exact ⟨fun h => absurd h (Option.some_ne_none _), fun h => absurd hz h⟩
  case isFalse hz => exact ⟨fun _ => hz, fun _ => rfl⟩

/-! ## Ranges -/

/-- `range` gives the members of the progression that come before the bound, all of them and in their
order, or fails if there are more than 2^24. -/
theorem Builtin.range_exact (start stop : Int64) {step : Int64} (hstep : step ≠ 0) :
    let inside := {k : ℕ | Before step.toInt (start.toInt + k * step.toInt) stop.toInt}
    let result := Builtin.range.call ⟨[.int start, .int stop, .int step], []⟩
    if 2 ^ 24 < inside.encard then ∃ err, result = .error err ∧ err.kind = .overflow
    else ∃ terms : List Int64, result = .ok (.list (terms.map .int)) ∧
      ∀ k : ℕ, terms[k]?.map Int64.toInt =
        if k ∈ inside then some (start.toInt + k * step.toInt) else none := by
  intro inside result
  have hstep' : step.toInt ≠ 0 := fun h => hstep (Int64.toInt_inj.mp h)
  have hresult : result = integersBetween start stop step := rfl
  have hcount : inside.encard = progressionLength start.toInt stop.toInt step.toInt := by
    have hinside : inside = Finset.range (progressionLength start.toInt stop.toInt step.toInt) := by
      ext k
      rw [Finset.coe_range, Set.mem_Iio, lt_progressionLength_iff hstep']
      rfl
    rw [hinside, Set.encard_coe_eq_coe_finsetCard, Finset.card_range]
  rw [hcount, hresult, integersBetween, if_neg hstep]
  split
  case isTrue hmany =>
    have hmany' : maxRange < progressionLength start.toInt stop.toInt step.toInt := by
      exact_mod_cast hmany
    exact ⟨.rangeTooLarge, if_pos hmany', rfl⟩
  case isFalse hfew =>
    have hfew' : ¬maxRange < progressionLength start.toInt stop.toInt step.toInt := by
      exact_mod_cast hfew
    rw [if_neg hfew']
    refine ⟨(progression start.toInt stop.toInt step.toInt).map Int64.ofInt, ?_, fun k => ?_⟩
    · rw [List.map_map]
      rfl
    · rw [List.getElem?_map, getElem?_progression hstep']
      change Option.map _ (Option.map _ (if k ∈ inside then _ else _)) = _
      split
      case isTrue hk =>
        obtain ⟨hlow, hhigh⟩ := bounds_of_before hk
        exact congrArg some (Int64.toInt_ofInt_of_le hlow hhigh)
      case isFalse => rfl

/-- A step by which only two integers are reached. -/
theorem Builtin.range_exact_of_least :
    Int64.minValue ≠ 0 ∧ ∃ terms : List Int64,
      Builtin.range.call ⟨[.int Int64.maxValue, .int Int64.minValue, .int Int64.minValue], []⟩ =
        .ok (.list (terms.map .int)) ∧
      terms[1]?.map Int64.toInt = some (-1) := by
  have hstep : Int64.minValue ≠ 0 := by decide
  have hresult : Builtin.range.call
      ⟨[.int Int64.maxValue, .int Int64.minValue, .int Int64.minValue], []⟩ =
        .ok (.list [.int Int64.maxValue, .int (-1)]) := rfl
  have hrange := Builtin.range_exact Int64.maxValue Int64.minValue hstep
  dsimp only at hrange
  split at hrange
  case isTrue =>
    obtain ⟨err, herr, -⟩ := hrange
    rw [hresult] at herr
    cases herr
  case isFalse =>
    obtain ⟨terms, hterms, hmembers⟩ := hrange
    exact ⟨hstep, terms, hterms, (hmembers 1).trans (if_pos (by decide))⟩

/-! ## Slices -/

/-- An end of a slice of `n` items: a negative bound counts from the end once, and what is outside of
the items is moved to the nearest place next to them. No bound means the given end. -/
def sliceEnd (n : Nat) (step : Int) (bound : Option Int64) (whole : Int) : Int :=
  match bound with
  | none => whole
  | some b =>
    let place := if b.toInt < 0 then b.toInt + n else b.toInt
    if 0 < step then max 0 (min n place) else max (-1) (min (n - 1) place)

/-- The first position of a slice, if there is one. -/
def sliceStart (n : Nat) (step : Int) (lower : Option Int64) : Int :=
  sliceEnd n step lower (if 0 < step then 0 else n - 1)

/-- The position that a slice ends before. -/
def sliceStop (n : Nat) (step : Int) (upper : Option Int64) : Int :=
  sliceEnd n step upper (if 0 < step then n else -1)

/-- The step of a slice. -/
def sliceStep (step : Option Int64) : Int64 :=
  step.getD 1

/-- In steps of 64-bit integers from one place to another: the places on the way, up to the first
one that is not before the end or that is no integer any more. -/
inductive Walk (stop step : Int64) : Int64 → List Int64 → Prop where
  | done {i : Int64} : ¬Before step.toInt i.toInt stop.toInt → Walk stop step i []
  | last {i : Int64} : Before step.toInt i.toInt stop.toInt → integer? (i.toInt + step.toInt) = none →
      Walk stop step i [i]
  | next {i j : Int64} {rest : List Int64} : Before step.toInt i.toInt stop.toInt →
      integer? (i.toInt + step.toInt) = some j → Walk stop step j rest → Walk stop step i (i :: rest)

theorem progression_eq_cons (hstep : step ≠ 0) :
    progression start stop step =
      if Before step start stop then start :: progression (start + step) stop step else [] := by
  split
  case isTrue h =>
    refine List.ext_getElem? fun k => ?_
    rw [getElem?_progression hstep]
    cases k with
    | zero => simpa using h
    | succ k =>
      have hplace : start + (k + 1 : Nat) * step = start + step + k * step := by push_cast; ring
      rw [hplace, List.getElem?_cons_succ, getElem?_progression hstep]
  case isFalse h =>
    have hlength : progressionLength start stop step = 0 := by
      refine Nat.eq_zero_of_not_pos fun hpos => h ?_
      simpa using (lt_progressionLength_iff hstep 0).mp hpos
    rw [progression, hlength]
    rfl

/-- Going step by step leads through the members of a progression. -/
theorem stepUntil_eq (hstep : step ≠ 0) : stepUntil stop step start = progression start stop step := by
  have hbefore : ∀ i, 0 < step ∧ i < stop ∨ step < 0 ∧ stop < i ↔ Before step i stop := by
    intro i
    unfold Before
    split <;> omega
  fun_induction stepUntil stop step start with
  | case1 i h ih => rw [progression_eq_cons hstep, if_pos ((hbefore i).mp h), ih]
  | case2 i h => rw [progression_eq_cons hstep, if_neg (mt (hbefore i).mpr h)]

theorem slicePositions_eq {step : Option Int64} (hstep : sliceStep step ≠ 0) :
    slicePositions n lower upper step =
      .ok ((progression (sliceStart n (sliceStep step).toInt lower)
        (sliceStop n (sliceStep step).toInt upper) (sliceStep step).toInt).map Int.toNat) := by
  have hgetD : (step.map Int64.toInt).getD 1 = (sliceStep step).toInt := by cases step <;> rfl
  have hstep' : (sliceStep step).toInt ≠ 0 := fun h => hstep (Int64.toInt_inj.mp h)
  unfold slicePositions
  simp only [hgetD, if_neg hstep', stepUntil_eq hstep']
  by_cases hpos : 0 < (sliceStep step).toInt
  · rw [if_pos hpos]
    unfold sliceStart sliceStop sliceEnd
    simp only [if_pos hpos]
    cases lower <;> cases upper <;> rfl
  · rw [if_neg hpos]
    unfold sliceStart sliceStop sliceEnd
    simp only [if_neg hpos]
    cases lower <;> cases upper <;> rfl

theorem sliceEnd_bounds {whole : Int} {bound : Option Int64}
    (h : (if 0 < step then 0 else -1) ≤ whole ∧ whole ≤ n + if 0 < step then 0 else -1) :
    (if 0 < step then 0 else -1) ≤ sliceEnd n step bound whole ∧
      sliceEnd n step bound whole ≤ n + if 0 < step then 0 else -1 := by
  cases bound with
  | none => exact h
  | some b =>
    dsimp only [sliceEnd]
    split <;> omega

theorem sliceStart_bounds (n : Nat) (step : Int) (lower : Option Int64) :
    (if 0 < step then 0 else -1) ≤ sliceStart n step lower ∧
      sliceStart n step lower ≤ n + if 0 < step then 0 else -1 :=
  sliceEnd_bounds (by split <;> omega)

theorem sliceStop_bounds (n : Nat) (step : Int) (upper : Option Int64) :
    (if 0 < step then 0 else -1) ≤ sliceStop n step upper ∧
      sliceStop n step upper ≤ n + if 0 < step then 0 else -1 :=
  sliceEnd_bounds (by split <;> omega)

theorem position_of_before
    (h : Before step (sliceStart n step lower + k * step) (sliceStop n step upper)) :
    0 ≤ sliceStart n step lower + k * step ∧ sliceStart n step lower + k * step < n := by
  have hstart := sliceStart_bounds n step lower
  have hstop := sliceStop_bounds n step upper
  unfold Before at h
  split at h
  case isTrue hpos =>
    have : 0 ≤ k * step := Int.mul_nonneg (Int.natCast_nonneg k) hpos.le
    rw [if_pos hpos] at hstart hstop
    omega
  case isFalse hneg =>
    have : k * step ≤ 0 := Int.mul_nonpos_of_nonneg_of_nonpos (Int.natCast_nonneg k) (by omega)
    rw [if_neg hneg] at hstart hstop
    omega

theorem exists_walk (stop : Int64) {step : Int64} (hstep : step ≠ 0) (start : Int64) :
    ∃ words, Walk stop step start words ∧
      words.map Int64.toInt = progression start.toInt stop.toInt step.toInt := by
  have hstep' : step.toInt ≠ 0 := fun h => hstep (Int64.toInt_inj.mp h)
  induction hl : progression start.toInt stop.toInt step.toInt generalizing start with
  | nil =>
    rw [progression_eq_cons hstep'] at hl
    split at hl
    case isTrue => cases hl
    case isFalse h => exact ⟨[], .done h, rfl⟩
  | cons i rest ih =>
    rw [progression_eq_cons hstep'] at hl
    split at hl
    case isFalse => cases hl
    case isTrue h =>
      obtain ⟨rfl, hrest⟩ := List.cons.inj hl
      cases hnext : integer? (start.toInt + step.toInt) with
      | some j =>
        have hj : j.toInt = start.toInt + step.toInt := toInt_of_integer? hnext
        obtain ⟨words, hwalk, hwords⟩ := ih j (by rw [hj, hrest])
        exact ⟨start :: words, .next h hnext hwalk, by rw [List.map_cons, hwords]⟩
      | none =>
        refine ⟨[start], .last h hnext, ?_⟩
        rw [← hrest, progression_eq_cons hstep', if_neg]
        · rfl
        · intro hbefore
          have hone : Before step.toInt (start.toInt + (1 : Nat) * step.toInt) stop.toInt := by
            simpa using hbefore
          rw [integer?_eq_none_iff] at hnext
          exact hnext (by simpa using bounds_of_before hone)

theorem pick_map {α β : Type} (f : α → β) (items : List α) (positions : List Nat) :
    (pick items positions).map f = pick (items.map f) positions := by
  unfold pick
  rw [List.map_filterMap]
  simp

/-- Sequences of all kinds are sliced by their items. -/
theorem Value.exists_slice_eq (hitems : v.iterate = .ok items)
    (hv : v.type = .list ∨ v.type = .tuple ∨ v.type = .str) (lower upper step : Option Int64) :
    ∃ make : List Nat → Value,
      v.slice lower upper step = (slicePositions items.length lower upper step).map make ∧
      ∀ positions, (make positions).type = v.type ∧
        (make positions).iterate = .ok (pick items positions) := by
  cases v with
  | list items' =>
    obtain rfl := Except.ok.inj hitems
    exact ⟨fun positions => .list (pick items' positions), rfl, fun _ => ⟨rfl, rfl⟩⟩
  | tuple items' =>
    obtain rfl := Except.ok.inj hitems
    exact ⟨fun positions => .tuple (pick items' positions), rfl, fun _ => ⟨rfl, rfl⟩⟩
  | str s =>
    obtain rfl := Except.ok.inj hitems
    refine ⟨fun positions => .ofText (pick s.toList positions), ?_, fun positions => ⟨rfl, ?_⟩⟩
    · rw [List.length_map]
      rfl
    · change Except.ok ((String.ofList (pick s.toList positions)).toList.map _) = _
      rw [← pick_map, String.toList_ofList]
  | _ => simp [Value.type] at hv

theorem pick_eq (positions : List (Fin items.length)) :
    pick items (positions.map Fin.val) = positions.map items.get := by
  unfold pick
  induction positions with
  | nil => rfl
  | cons p positions ih => simp

theorem Value.subscript_eq (hitems : v.iterate = .ok items)
    (hv : v.type = .list ∨ v.type = .tuple ∨ v.type = .str) (i : Int64) :
    ∃ what, v.subscript (.int i) = itemAt items (.int i) what := by
  cases v with
  | list _ | tuple _ | str _ =>
    obtain rfl := Except.ok.inj hitems
    exact ⟨_, rfl⟩
  | _ => simp [Value.type] at hv

theorem itemAt_eq (items : List Value) (i : Int64) (what : String) :
    itemAt items (.int i) what =
      if h : -items.length ≤ i.toInt ∧ i.toInt < items.length then
        .ok (items.get ⟨(if i.toInt < 0 then i.toInt + items.length else i.toInt).toNat,
          by split <;> omega⟩)
      else .error (.indexOutOfRange what) := by
  have hplace : ((if i.toInt < 0 then i.toInt + items.length else i.toInt) < 0 ∨
      (items.length : Int) ≤ if i.toInt < 0 then i.toInt + items.length else i.toInt) ↔
      ¬(-items.length ≤ i.toInt ∧ i.toInt < items.length) := by
    split <;> omega
  have hposition : position (.int i) items.length what = if _ then _ else _ := rfl
  unfold itemAt
  rw [hposition]
  by_cases h : -items.length ≤ i.toInt ∧ i.toInt < items.length
  · rw [if_neg (not_not_intro h ∘ hplace.mp), dif_pos h]
    rw [pure_bind, List.getElem?_eq_getElem]
    rfl
  · rw [if_pos (hplace.mpr h), dif_neg h]
    rfl

theorem exists_positions {places : List Int} (h : ∀ z ∈ places, 0 ≤ z ∧ z < n) :
    ∃ positions : List (Fin n), places = positions.map fun p : Fin n => (p.val : Int) := by
  induction places with
  | nil => exact ⟨[], rfl⟩
  | cons z places ih =>
    obtain ⟨hz, hplaces⟩ := List.forall_mem_cons.mp h
    obtain ⟨positions, rfl⟩ := ih hplaces
    refine ⟨⟨z.toNat, by omega⟩ :: positions, ?_⟩
    rw [List.map_cons, Int.toNat_of_nonneg hz.1]

/-- A slice has the items at the positions that are reached from one end before the other, which are all
positions of items, and none of the numbers on the way is out of the range of integers. An index gives an
item if it is one of a position, or of a position counted from the end. -/
theorem Value.slice_exact {v : Value} {items : List Value} (hitems : v.iterate = .ok items)
    (hv : v.type = .list ∨ v.type = .tuple ∨ v.type = .str) :
    (∀ lower upper step : Option Int64,
      let d := sliceStep step
      let start := sliceStart items.length d.toInt lower
      let stop := sliceStop items.length d.toInt upper
      if d = 0 then ∃ err, v.slice lower upper step = .error err ∧ err.kind = .value
      else ∃ (positions : List (Fin items.length)) (result : Value),
        v.slice lower upper step = .ok result ∧ result.type = v.type ∧
        result.iterate = .ok (positions.map items.get) ∧
        (∀ k : ℕ, positions[k]?.map (fun p : Fin items.length => (p.val : Int)) =
          if Before d.toInt (start + k * d.toInt) stop then some (start + k * d.toInt)
          else Option.none) ∧
        (items.length < 2 ^ 63 →
          (∀ b : Int64, b.toInt < 0 → (integer? (b.toInt + items.length)).isSome) ∧
          (integer? (items.length - 1)).isSome ∧
          ∃ (first last : Int64) (words : List Int64), first.toInt = start ∧ last.toInt = stop ∧
            Walk last d first words ∧
            words.map Int64.toInt = positions.map fun p : Fin items.length => (p.val : Int))) ∧
    ∀ i : Int64, ((∃ item, v.subscript (.int i) = .ok item) ↔
        -items.length ≤ i.toInt ∧ i.toInt < items.length) ∧
      ∀ p : Fin items.length, (p : Int) = (if i.toInt < 0 then i.toInt + items.length else i.toInt) →
        v.subscript (.int i) = .ok (items.get p) := by
  refine ⟨fun lower upper step => ?_, fun i => ?_⟩
  · intro d start stop
    obtain ⟨make, hslice, hmake⟩ := v.exists_slice_eq hitems hv lower upper step
    rw [hslice]
    split
    case isTrue hd =>
      have hzero : (step.map Int64.toInt).getD 1 = 0 := by
        have hd' : d.toInt = 0 := by rw [hd]; rfl
        rw [← hd']
        cases step <;> rfl
      refine ⟨.zeroSliceStep, ?_, rfl⟩
      rw [slicePositions, if_pos hzero]
      rfl
    case isFalse hd =>
      have hd' : d.toInt ≠ 0 := fun h => hd (Int64.toInt_inj.mp h)
      have hplaces : ∀ z ∈ progression start stop d.toInt, 0 ≤ z ∧ z < items.length := by
        intro z hz
        obtain ⟨k, hk⟩ := List.getElem?_of_mem hz
        rw [getElem?_progression hd'] at hk
        split at hk
        case isTrue h =>
          rw [← Option.some.inj hk]
          exact position_of_before h
        case isFalse => cases hk
      obtain ⟨positions, hpositions⟩ := exists_positions hplaces
      have htoNat : (progression start stop d.toInt).map Int.toNat = positions.map Fin.val := by
        rw [hpositions, List.map_map]
        rfl
      refine ⟨positions, make (positions.map Fin.val), ?_, (hmake _).1, ?_, fun k => ?_, fun hsize => ?_⟩
      · rw [slicePositions_eq hd, htoNat]
        rfl
      · rw [(hmake _).2, pick_eq]
      · rw [← getElem?_progression hd', hpositions, List.getElem?_map]
      · rw [← hpositions]
        have hword : ∀ {z : Int}, (if 0 < d.toInt then 0 else -1) ≤ z ∧
            z ≤ items.length + (if 0 < d.toInt then 0 else -1) → ∃ i : Int64, i.toInt = z := by
          intro z hz
          exact ⟨.ofInt z, Int64.toInt_ofInt_of_le (by split at hz <;> omega) (by split at hz <;> omega)⟩
        obtain ⟨first, hfirst⟩ := hword (sliceStart_bounds items.length d.toInt lower)
        obtain ⟨last, hlast⟩ := hword (sliceStop_bounds items.length d.toInt upper)
        obtain ⟨words, hwalk, hwords⟩ := exists_walk last hd first
        rw [hfirst, hlast] at hwords
        have hsome : ∀ {z : Int}, -2 ^ 63 ≤ z → z < 2 ^ 63 → (integer? z).isSome := by
          intro z hlow hhigh
          rw [Option.isSome_iff_ne_none, Ne, integer?_eq_none_iff, not_not]
          exact ⟨hlow, hhigh⟩
        refine ⟨fun b hb => ?_, hsome (by omega) (by omega), first, last, words, hfirst, hlast, hwalk,
          hwords⟩
        have := b.le_toInt
        exact hsome (by omega) (by omega)
  · obtain ⟨what, hsubscript⟩ := v.subscript_eq hitems hv i
    rw [hsubscript, itemAt_eq]
    refine ⟨?_, fun p hp => ?_⟩
    · split
      case isTrue h => exact ⟨fun _ => h, fun _ => ⟨_, rfl⟩⟩
      case isFalse h =>
        refine ⟨?_, fun h' => absurd h' h⟩
        rintro ⟨item, hitem⟩
        cases hitem
    · have hin : -items.length ≤ i.toInt ∧ i.toInt < items.length := by split at hp <;> omega
      rw [dif_pos hin]
      congr
      omega

/-- A step that leaves the integers after the last character of a text. -/
theorem Value.slice_exact_of_text :
    (∃ result, (Value.str "abc").slice .none .none (some Int64.minValue) = .ok result ∧
      result.type = .str) ∧ ∃ item, (Value.str "abc").subscript (.int (-3)) = .ok item := by
  obtain ⟨hslice, hindex⟩ := Value.slice_exact (v := .str "abc") rfl (.inr (.inr rfl))
  have hsome := hslice .none .none (some Int64.minValue)
  rw [if_neg (by decide)] at hsome
  obtain ⟨positions, result, hresult, htype, -⟩ := hsome
  exact ⟨⟨result, hresult, htype⟩, (hindex (-3)).1.mpr (by decide)⟩

end ComponentMarkup
