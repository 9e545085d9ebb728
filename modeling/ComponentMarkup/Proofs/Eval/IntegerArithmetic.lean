import Mathlib
import ComponentMarkup.Eval.Arithmetic

/-!
# Integer arithmetic is exact

Operators on integers and booleans give the number that they give on whole numbers, or an error if
that number is no integer.
-/

namespace ComponentMarkup

/-! ## Division of words -/

/-- A quotient rounded down is one rounded towards zero, less one if something remains whose sign is
not that of the divisor. -/
theorem fdiv_fmod_of_signs {a b : Int} (hb : b ≠ 0) :
    if a.tmod b ≠ 0 ∧ ¬(a.tmod b < 0 ↔ b < 0) then
      a.fdiv b = a.tdiv b - 1 ∧ a.fmod b = a.tmod b + b
    else a.fdiv b = a.tdiv b ∧ a.fmod b = a.tmod b := by
  have hsum : a.tmod b + b * a.tdiv b = a := Int.tmod_add_mul_tdiv a b
  have hless : a.tmod b < b.natAbs ∧ -a.tmod b < b.natAbs := by
    have hmod : (a.tmod b).natAbs < b.natAbs := by
      rw [Int.natAbs_tmod]
      exact Nat.mod_lt _ (Int.natAbs_pos.mpr hb)
    omega
  rcases lt_or_gt_of_ne hb with hneg | hpos
  · split
    · exact (Int.fdiv_fmod_unique' hneg).mpr ⟨by rw [mul_sub]; omega, by omega, by omega⟩
    · exact (Int.fdiv_fmod_unique' hneg).mpr ⟨hsum, by omega, by omega⟩
  · split
    · exact (Int.fdiv_fmod_unique hpos).mpr ⟨by rw [mul_sub]; omega, by omega, by omega⟩
    · exact (Int.fdiv_fmod_unique hpos).mpr ⟨hsum, by omega, by omega⟩

/-- The test for a remainder whose sign is not that of the divisor, on words. -/
theorem differs_iff (x y z : Int64) : (x != 0 && decide (z < 0) != decide (y < 0)) = true ↔
    x.toInt ≠ 0 ∧ ¬(z.toInt < 0 ↔ y.toInt < 0) := by
  have hzero : (0 : Int64).toInt = 0 := rfl
  rw [Bool.and_eq_true, bne_iff_ne, bne_iff_ne, Ne, Ne, decide_eq_decide, ← Int64.toInt_inj,
    Int64.lt_iff_toInt_lt, Int64.lt_iff_toInt_lt, hzero]

theorem floorQuotient_toInt {x y : Int64} (hy : y.toInt ≠ 0)
    (h : ¬(x.toInt = -integerBound ∧ y.toInt = -1)) :
    (floorQuotient x y).toInt = x.toInt.fdiv y.toInt := by
  have hquotient : (x / y).toInt = x.toInt.tdiv y.toInt := by
    by_cases hx : x = Int64.minValue
    · refine Int64.toInt_div_of_ne_right x y fun hy' => h ?_
      rw [hx, hy']
      exact ⟨rfl, rfl⟩
    · exact Int64.toInt_div_of_ne_left x y hx
  -- What remains has the sign of the dividend, which is what the test on words looks at.
  have hsign : x.toInt.tmod y.toInt ≠ 0 → (x.toInt.tmod y.toInt < 0 ↔ x.toInt < 0) := by
    intro hrest
    rcases lt_or_ge x.toInt 0 with hx | hx
    · have := Int.tmod_nonneg y.toInt (show 0 ≤ -x.toInt by omega)
      rw [Int.neg_tmod] at this
      omega
    · have := Int.tmod_nonneg y.toInt hx
      omega
  have hfloor := fdiv_fmod_of_signs (a := x.toInt) hy
  unfold floorQuotient
  split
  case isTrue hdiffers =>
    rw [differs_iff, Int64.toInt_mod] at hdiffers
    rw [if_pos ⟨hdiffers.1, by rw [hsign hdiffers.1]; exact hdiffers.2⟩] at hfloor
    have hhalf : (x.toInt.tdiv y.toInt).natAbs ≤ x.toInt.natAbs / 2 := by
      have hdivisor : 2 ≤ y.toInt.natAbs := by
        by_contra hone
        have hmod := Int.natAbs_tmod x.toInt y.toInt
        rw [show y.toInt.natAbs = 1 by omega, Nat.mod_one] at hmod
        exact hdiffers.1 (Int.natAbs_eq_zero.mp hmod)
      rw [Int.natAbs_tdiv]
      exact Nat.div_le_div_left hdivisor (by decide)
    have := x.le_toInt
    have := x.toInt_lt
    rw [hfloor.1, Int64.toInt_sub, hquotient, Int64.toInt_one]
    exact Int.bmod_eq_of_le (by omega) (by omega)
  case isFalse hdiffers =>
    rw [differs_iff, Int64.toInt_mod] at hdiffers
    rw [if_neg fun h => hdiffers ⟨h.1, by rw [← hsign h.1]; exact h.2⟩] at hfloor
    rw [hfloor.1, hquotient]

theorem floorRest_toInt {x y : Int64} (hy : y.toInt ≠ 0) :
    (floorRest x y).toInt = x.toInt.fmod y.toInt := by
  have hfloor := fdiv_fmod_of_signs (a := x.toInt) hy
  unfold floorRest
  split
  case isTrue hdiffers =>
    rw [differs_iff, Int64.toInt_mod] at hdiffers
    rw [if_pos hdiffers] at hfloor
    rw [hfloor.2, ← Int64.toInt_mod, Int64.toInt_add]
    have := (x % y).le_toInt
    have := (x % y).toInt_lt
    have := y.le_toInt
    have := y.toInt_lt
    rw [← Int64.toInt_mod] at hdiffers
    exact Int.bmod_eq_of_le (by omega) (by omega)
  case isFalse hdiffers =>
    rw [differs_iff, Int64.toInt_mod] at hdiffers
    rw [if_neg hdiffers] at hfloor
    rw [hfloor.2, Int64.toInt_mod]

/-! ## Exact results -/

/-- The result of an operation on rational numbers. -/
def BinaryOp.exact (op : BinaryOp) (a b : ℚ) : ℚ :=
  match op with
  | .add => a + b
  | .sub => a - b
  | .mul => a * b
  | .div => a / b
  | .floorDiv => ⌊a / b⌋
  | .mod => a - b * ⌊a / b⌋
  | .pow => a ^ b.num

theorem floor_div_eq_fdiv (a b : Int) : ⌊(a / b : ℚ)⌋ = a.fdiv b := by
  have hnonneg : ∀ (a b : Int), 0 ≤ b → ⌊(a / b : ℚ)⌋ = a.fdiv b := by
    intro a b hb
    lift b to Nat using hb
    rw [Int.fdiv_eq_ediv_of_nonneg a (Int.natCast_nonneg b)]
    exact Rat.floor_intCast_div_natCast a b
  rcases le_total 0 b with hb | hb
  · exact hnonneg a b hb
  · simpa using hnonneg (-a) (-b) (neg_nonneg.mpr hb)

theorem exact_pow (a : Int) {b : Int} (hb : 0 ≤ b) : BinaryOp.pow.exact a b = (a ^ b.toNat : Int) := by
  lift b to Nat using hb
  rw [BinaryOp.exact, Rat.num_intCast, zpow_natCast, Int.toNat_natCast]
  push_cast
  rfl

theorem checkedInt_of_fits {z : Int} (h : -2 ^ 63 ≤ z ∧ z < 2 ^ 63) :
    checkedInt z = .ok (.int (Int64.ofInt z)) := by
  have hz : integer? z = some (Int64.ofInt z) := if_pos h
  rw [checkedInt, hz]

theorem checkedInt_of_not_fits {z : Int} (h : ¬(-2 ^ 63 ≤ z ∧ z < 2 ^ 63)) :
    checkedInt z = .error .integerOverflow := by
  have hz : integer? z = none := if_neg h
  rw [checkedInt, hz]

theorem not_fits_pow {a : Int} {n : Nat} (ha : 1 < a.natAbs) (hn : 64 ≤ n) :
    ¬(-2 ^ 63 ≤ a ^ n ∧ a ^ n < 2 ^ 63) := by
  have hpower : 2 ^ 64 ≤ (a ^ n).natAbs := by
    rw [Int.natAbs_pow]
    calc 2 ^ 64 ≤ 2 ^ n := Nat.pow_le_pow_right (by decide) hn
      _ ≤ a.natAbs ^ n := Nat.pow_le_pow_left ha n
  omega

theorem intPower_eq {a : Int} {n : Nat} (hn : n < 2 ^ 32) : intPower a n = checkedInt (a ^ n) := by
  rw [intPower, if_neg (by omega)]
  split
  case isTrue hsmall =>
    congr 1
    split
    case isTrue hzero => rw [hzero, pow_zero]
    case isFalse hne =>
      rcases (by omega : a = -1 ∨ a = 0 ∨ a = 1) with rfl | rfl | rfl
      · split
        case isTrue heven => exact (Nat.even_iff.mpr heven).neg_one_pow.symm
        case isFalse hodd => exact (Nat.odd_iff.mpr (by omega)).neg_one_pow.symm
      · rw [zero_pow hne]
        exact ite_self 0
      · rw [one_pow]
        exact ite_self 1
  case isFalse hlarge =>
    split
    case isTrue hmany => exact (checkedInt_of_not_fits (not_fits_pow (by omega) hmany)).symm
    case isFalse => rfl

/-- What is refused although the result is an integer: the remainder of the least integer by -1, and
exponents of more than 32 bits. -/
def BinaryOp.refuses (op : BinaryOp) (a b : Int) : Prop :=
  op = .mod ∧ a = -2 ^ 63 ∧ b = -1 ∨ op = .pow ∧ 2 ^ 32 ≤ b

instance (op : BinaryOp) (a b : Int) : Decidable (op.refuses a b) :=
  inferInstanceAs (Decidable (_ ∨ _))

/-- All operations on integers at once: the exact result is checked. -/
theorem intBinary_eq {op : BinaryOp} (hop : op ≠ .div) {i j : Int64} (hpow : op = .pow → 0 ≤ j.toInt)
    (hzero : ¬((op = .floorDiv ∨ op = .mod) ∧ j = 0)) :
    ∃ z : Int, (z : ℚ) = op.exact i.toInt j.toInt ∧
      (op.refuses i.toInt j.toInt → intBinary op i j = .error .integerOverflow) ∧
      (¬op.refuses i.toInt j.toInt → intBinary op i j = checkedInt z) := by
  have hj : op = .floorDiv ∨ op = .mod → j.toInt ≠ 0 := fun h hj => hzero ⟨h, Int64.toInt_inj.mp hj⟩
  have hword : ∀ w : Int64, (.ok (.int w) : Except OperationError Value) = checkedInt w.toInt := fun w => by
    rw [checkedInt_of_fits ⟨w.le_toInt, w.toInt_lt⟩, Int64.ofInt_toInt]
  cases op with
  | add => exact ⟨i.toInt + j.toInt, by push_cast; rfl, by simp [BinaryOp.refuses], fun _ => rfl⟩
  | sub => exact ⟨i.toInt - j.toInt, by push_cast; rfl, by simp [BinaryOp.refuses], fun _ => rfl⟩
  | mul => exact ⟨i.toInt * j.toInt, by push_cast; rfl, by simp [BinaryOp.refuses], fun _ => rfl⟩
  | div => exact absurd rfl hop
  | floorDiv =>
    refine ⟨i.toInt.fdiv j.toInt, by rw [BinaryOp.exact, floor_div_eq_fdiv],
      by simp [BinaryOp.refuses], fun _ => ?_⟩
    rw [intBinary, if_neg (hj (.inl rfl))]
    split
    case isTrue hleast =>
      rw [hleast.1, hleast.2]
      rfl
    case isFalse hleast => rw [hword, floorQuotient_toInt (hj (.inl rfl)) hleast]
  | mod =>
    refine ⟨i.toInt.fmod j.toInt, ?_, fun h => ?_, fun h => ?_⟩
    · rw [BinaryOp.exact, floor_div_eq_fdiv, Int.fmod_def]
      push_cast
      rfl
    · rw [intBinary, if_neg (hj (.inr rfl)), if_pos (by simpa [BinaryOp.refuses, integerBound] using h)]
    · rw [intBinary, if_neg (hj (.inr rfl)), if_neg (by simpa [BinaryOp.refuses, integerBound] using h),
        hword, floorRest_toInt (hj (.inr rfl))]
  | pow =>
    have hpower : intBinary .pow i j = intPower i.toInt j.toInt.toNat := if_neg (hpow rfl).not_gt
    have hrefuses : BinaryOp.pow.refuses i.toInt j.toInt ↔ 2 ^ 32 ≤ j.toInt.toNat := by
      simp only [BinaryOp.refuses, reduceCtorEq, false_and, true_and, false_or]
      omega
    rw [hrefuses, hpower]
    exact ⟨i.toInt ^ j.toInt.toNat, (exact_pow _ (hpow rfl)).symm, fun h => if_pos h,
      fun h => intPower_eq (by omega)⟩

/-! ## Operators -/

theorem BinaryOp.apply_integers (op : BinaryOp) {x y : Value} {i j : Int64}
    (hx : x.toInt? = some i) (hy : y.toInt? = some j) : op.apply x y = intBinary op i j := by
  have hnumber : ∀ {v : Value} {i : Int64}, v.toInt? = some i → v.number? = some (.int i) := by
    intro v i h
    cases v with
    | int k => exact congrArg (some ∘ Number.int) (Option.some.inj h)
    | bool b => exact congrArg (some ∘ Number.int) (Option.some.inj h)
    | _ => cases h
  have hnumeric : ∀ op, numericBinary op x y = intBinary op i j := fun op => by
    rw [numericBinary, hnumber hx, hnumber hy]
    rfl
  have hrepeat : ∀ {v : Value} {i : Int64}, v.toInt? = some i → ∀ count, v.repeat? count = none := by
    intro v i h count
    cases v with
    | int k => rfl
    | bool b => rfl
    | _ => cases h
  cases op with
  | add =>
    rw [← hnumeric]
    cases x with
    | int k => rfl
    | bool b => rfl
    | _ => cases hx
  | mul =>
    have hnone : repetition? x y = none := by
      rw [repetition?, hy, hx, Option.bind_some, Option.bind_some, hrepeat hx, hrepeat hy]
    rw [BinaryOp.apply, hnone]
    exact hnumeric .mul
  | _ => exact hnumeric _

/-- An operator on integers and booleans, other than the one whose result is a decimal, gives the exact
result where that is an integer, with the two exceptions that `BinaryOp.refuses` names. Otherwise it
fails: for a divisor of zero as a division by zero, for a result that does not fit as an overflow. A
quotient and a remainder make up the dividend. -/
theorem BinaryOp.integers_exact {x y : Value} {i j : Int64} (hx : x.toInt? = some i)
    (hy : y.toInt? = some j) :
    (∀ op : BinaryOp, op ≠ .div → (op = .pow → 0 ≤ j.toInt) →
      let exact := op.exact i.toInt j.toInt
      if (op = .floorDiv ∨ op = .mod) ∧ j = 0 then
        ∃ err, op.apply x y = .error err ∧ err.kind = .zeroDivision
      else if (-2 ^ 63 ≤ exact ∧ exact < 2 ^ 63) ∧ ¬op.refuses i.toInt j.toInt then
        ∃ r : Int64, op.apply x y = .ok (.int r) ∧ r.toInt = exact
      else ∃ err, op.apply x y = .error err ∧ err.kind = .overflow) ∧
    ∀ q r : Int64, BinaryOp.floorDiv.apply x y = .ok (.int q) →
      BinaryOp.mod.apply x y = .ok (.int r) →
      i.toInt = q.toInt * j.toInt + r.toInt ∧ |r.toInt| < |j.toInt| ∧
        (r.toInt = 0 ∨ r.toInt.sign = j.toInt.sign) := by
  refine ⟨fun op hop hpow => ?_, fun q r hq hr => ?_⟩
  · intro exact
    rw [op.apply_integers hx hy]
    split
    case isTrue hzero =>
      obtain ⟨rfl | rfl, rfl⟩ := hzero <;> exact ⟨.integerDivisionByZero, rfl, rfl⟩
    case isFalse hzero =>
      obtain ⟨z, hz, hrefused, hchecked⟩ := intBinary_eq hop hpow hzero
      have hexact : exact = z := hz.symm
      have hfits : (-2 ^ 63 ≤ exact ∧ exact < 2 ^ 63) ↔ (-2 ^ 63 ≤ z ∧ z < 2 ^ 63) := by
        rw [hexact]
        norm_cast
      split
      case isTrue h =>
        have hz' := hfits.mp h.1
        refine ⟨Int64.ofInt z, (hchecked h.2).trans (checkedInt_of_fits hz'), ?_⟩
        rw [Int64.toInt_ofInt_of_le hz'.1 hz'.2, hexact]
      case isFalse h =>
        refine ⟨.integerOverflow, ?_, rfl⟩
        by_cases hrefuses : op.refuses i.toInt j.toInt
        · exact hrefused hrefuses
        · exact (hchecked hrefuses).trans (checkedInt_of_not_fits fun hz => h ⟨hfits.mpr hz, hrefuses⟩)
  · rw [BinaryOp.apply_integers _ hx hy] at hq hr
    obtain ⟨hj, hquotient⟩ : j.toInt ≠ 0 ∧ q.toInt = i.toInt.fdiv j.toInt := by
      rw [intBinary] at hq
      split at hq
      case isTrue => cases hq
      case isFalse hj =>
        split at hq
        case isTrue => cases hq
        case isFalse hleast =>
          obtain rfl := Value.int.inj (Except.ok.inj hq)
          exact ⟨hj, floorQuotient_toInt hj hleast⟩
    have hrest : r.toInt = i.toInt.fmod j.toInt := by
      rw [intBinary, if_neg hj] at hr
      split at hr
      case isTrue => cases hr
      case isFalse =>
        obtain rfl := Value.int.inj (Except.ok.inj hr)
        exact floorRest_toInt hj
    rw [mul_comm]
    rcases lt_or_gt_of_ne hj with hneg | hpos
    · obtain ⟨hsum, hlow, hhigh⟩ := (Int.fdiv_fmod_unique' hneg).mp ⟨hquotient.symm, hrest.symm⟩
      refine ⟨by omega, by rw [abs_of_neg hneg, abs_of_nonpos hhigh]; omega, ?_⟩
      rw [Int.sign_eq_neg_one_of_neg hneg, Int.sign_eq_neg_one_iff_neg]
      omega
    · obtain ⟨hsum, hlow, hhigh⟩ := (Int.fdiv_fmod_unique hpos).mp ⟨hquotient.symm, hrest.symm⟩
      refine ⟨by omega, by rwa [abs_of_pos hpos, abs_of_nonneg hlow], ?_⟩
      rw [Int.sign_eq_one_of_pos hpos, Int.sign_eq_one_iff_pos]
      omega

/-- A negative dividend. -/
theorem BinaryOp.integers_exact_of_negative :
    BinaryOp.floorDiv.apply (.int (-7)) (.int 2) = .ok (.int (-4)) ∧
      BinaryOp.mod.apply (.int (-7)) (.int 2) = .ok (.int 1) ∧
      (-7 : Int64).toInt = (-4 : Int64).toInt * (2 : Int64).toInt + (1 : Int64).toInt := by
  have hquotient : BinaryOp.floorDiv.apply (.int (-7)) (.int 2) = .ok (.int (-4)) := rfl
  have hrest : BinaryOp.mod.apply (.int (-7)) (.int 2) = .ok (.int 1) := rfl
  exact ⟨hquotient, hrest, ((BinaryOp.integers_exact rfl rfl).2 _ _ hquotient hrest).1⟩

/-- What is refused as an overflow although the exact result is an integer: the remainder of the least
integer by -1, and powers of 0, 1 and -1 whose exponent has more than 32 bits. -/
def BinaryOp.RefusesInteger (op : BinaryOp) (a b : Int) : Prop :=
  op = .mod ∧ a = -2 ^ 63 ∧ b = -1 ∨ op = .pow ∧ a.natAbs ≤ 1 ∧ 2 ^ 32 ≤ b

theorem BinaryOp.exact_of_refusesInteger {op : BinaryOp} {a b : Int} (h : op.RefusesInteger a b) :
    op.exact a b = -1 ∨ op.exact a b = 0 ∨ op.exact a b = 1 := by
  rcases h with ⟨rfl, rfl, rfl⟩ | ⟨rfl, ha, hb⟩
  · right; left
    norm_num [BinaryOp.exact]
  · rw [BinaryOp.exact, Rat.num_intCast]
    rcases (by omega : a = -1 ∨ a = 0 ∨ a = 1) with rfl | rfl | rfl
    · rcases Int.even_or_odd b with heven | hodd
      · exact .inr (.inr (by push_cast; exact heven.neg_one_zpow))
      · exact .inl (by push_cast; exact hodd.neg_one_zpow)
    · exact .inr (.inl (by push_cast; exact zero_zpow b (by omega)))
    · exact .inr (.inr (by push_cast; exact one_zpow b))

/-- An operator on integers and booleans overflows if its exact result is no integer. The converse fails
where `BinaryOp.RefusesInteger` says so, and nowhere else. -/
theorem BinaryOp.overflows_iff {x y : Value} {i j : Int64} (hx : x.toInt? = some i)
    (hy : y.toInt? = some j) (op : BinaryOp) (hop : op ≠ .div) (hpow : op = .pow → 0 ≤ j.toInt)
    (hzero : ¬((op = .floorDiv ∨ op = .mod) ∧ j = 0)) :
    let fits := -2 ^ 63 ≤ op.exact i.toInt j.toInt ∧ op.exact i.toInt j.toInt < 2 ^ 63
    ((∃ err, op.apply x y = .error err ∧ err.kind = .overflow) ↔
      ¬fits ∨ op.RefusesInteger i.toInt j.toInt) ∧ (op.RefusesInteger i.toInt j.toInt → fits) := by
  intro fits
  have hinteger : op.RefusesInteger i.toInt j.toInt → fits := by
    intro h
    rcases BinaryOp.exact_of_refusesInteger h with hexact | hexact | hexact <;>
      simp only [fits, hexact] <;> norm_num
  refine ⟨?_, hinteger⟩
  obtain ⟨z, hz, hrefused, hchecked⟩ := intBinary_eq (i := i) hop hpow hzero
  have hfits : fits ↔ -2 ^ 63 ≤ z ∧ z < 2 ^ 63 := by
    simp only [fits, ← hz]
    norm_cast
  rw [op.apply_integers hx hy]
  by_cases hrefuses : op.refuses i.toInt j.toInt
  · rw [hrefused hrefuses]
    refine iff_of_true ⟨_, rfl, rfl⟩ ?_
    rcases hrefuses with hmod | ⟨rfl, hb⟩
    · exact .inr (.inl hmod)
    · by_cases ha : i.toInt.natAbs ≤ 1
      · exact .inr (.inr ⟨rfl, ha, hb⟩)
      · rw [exact_pow _ (by omega), Int.cast_inj] at hz
        rw [hfits, hz]
        exact .inl (not_fits_pow (by omega) (by omega))
  · have hexact : ¬op.RefusesInteger i.toInt j.toInt :=
      fun h => hrefuses (h.imp_right fun hpower => ⟨hpower.1, hpower.2.2⟩)
    rw [hchecked hrefuses, or_iff_left hexact, hfits]
    by_cases hz' : -2 ^ 63 ≤ z ∧ z < 2 ^ 63
    · rw [checkedInt_of_fits hz']
      exact iff_of_false (by rintro ⟨_, ⟨⟩, -⟩) (not_not_intro hz')
    · rw [checkedInt_of_not_fits hz']
      exact iff_of_true ⟨_, rfl, rfl⟩ hz'

/-- The least integer has a quotient by -1 that does not fit. -/
theorem BinaryOp.overflows_iff_of_least :
    ¬BinaryOp.floorDiv.RefusesInteger Int64.minValue.toInt (-1 : Int64).toInt ∧
      ∃ err, BinaryOp.floorDiv.apply (.int Int64.minValue) (.int (-1)) = .error err ∧
        err.kind = .overflow := by
  refine ⟨by simp [BinaryOp.RefusesInteger], ?_⟩
  refine (BinaryOp.overflows_iff rfl rfl .floorDiv (by decide) (by simp) (by decide)).1.mpr ?_
  rw [Int64.toInt_minValue, show (-1 : Int64).toInt = -1 from rfl]
  exact .inl (by norm_num [BinaryOp.exact])

/-- Two results that are integers, and yet overflow: the remainder of the least integer by -1, and a
power of 1. -/
theorem BinaryOp.integers_refused :
    BinaryOp.mod.exact Int64.minValue.toInt (-1 : Int64).toInt = 0 ∧
      BinaryOp.mod.apply (.int Int64.minValue) (.int (-1)) = .error .integerOverflow ∧
      BinaryOp.pow.exact (1 : Int64).toInt (4294967296 : Int64).toInt = 1 ∧
      BinaryOp.pow.apply (.int 1) (.int 4294967296) = .error .integerOverflow := by
  refine ⟨?_, rfl, ?_, rfl⟩
  · rw [Int64.toInt_minValue, show (-1 : Int64).toInt = -1 from rfl]
    norm_num [BinaryOp.exact]
  · rw [exact_pow _ (by decide), Int64.toInt_one, one_pow, Int.cast_one]

end ComponentMarkup
