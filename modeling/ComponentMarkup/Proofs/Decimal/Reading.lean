import ComponentMarkup.Decimal.Layout
import ComponentMarkup.Decimal.Reading
import ComponentMarkup.Proofs.Decimal.Shortest
import Mathlib

/-!
# Written doubles are read back

A decimal that rounds to a double is read as the double (`nearest_eq`), and the text of a double is its
shortest decimal, so a double whose text is digits with a point is read back from its text
(`read?_marked`). The whole numbers from `10 ^ 16` on and the infinities have no point in their text.
-/

namespace ComponentMarkup.Decimal

/-! ## The double of a decimal -/

section Nearest

variable {x : Float} {negative : Bool} {m digits : Nat} {e exponent : Int}

theorem ofMagnitude_bitsOf (h : parts x = .finite negative m e) :
    ofMagnitude negative (bitsOf m e) = x ∧ (m = 0 ∧ e = minExponent ∨ IsDouble m e) := by
  obtain ⟨hbits, hcases⟩ := bits_of_parts x.toBits.toNat_lt h
  refine ⟨?_, hcases⟩
  have hsame : (if negative then Nat.pow 2 63 + bitsOf m e else bitsOf m e) = x.toBits.toNat := by
    rw [hbits]
    cases negative <;> simp
  rw [ofMagnitude, hsame, UInt64.ofNat_toNat, Float.ofBits_toBits]

theorem two_pow_le_ten_pow : (2 : ℚ) ^ (1075 : Int) ≤ 10 ^ (400 : Int) :=
  calc (2 : ℚ) ^ (1075 : Int) ≤ 2 ^ (13 * 100 : Int) := zpow_le_zpow_right₀ (by norm_num) (by norm_num)
    _ = ((2 ^ 13 : Nat) : ℚ) ^ (100 : Int) := by
        rw [zpow_mul]
        norm_num
    _ ≤ ((10 ^ 4 : Nat) : ℚ) ^ (100 : Int) := zpow_le_zpow_left₀ (by norm_num) (by norm_num) (by norm_num)
    _ = 10 ^ (4 * 100 : Int) := by
        rw [zpow_mul]
        norm_num

/-- Numbers that round to a double are within the bounds of the decimals that are computed. -/
theorem magnitude_bounds (h : IsDouble m e) (hdigits : digits ≠ 0)
    (hround : RoundsTo m e (digits * 10 ^ exponent)) :
    -400 ≤ digitCount digits + exponent ∧ digitCount digits + exponent ≤ 400 := by
  obtain ⟨hlow, hhigh, -⟩ := hround.bounds
  rw [le_div_iff₀ (two_zpow_pos e)] at hlow
  rw [div_le_iff₀ (two_zpow_pos e)] at hhigh
  have hten := ten_zpow_pos exponent
  have hdigits₁ : (10 : ℚ) ^ (digitCount digits - 1 + exponent : Int) ≤ digits * 10 ^ exponent := by
    rw [zpow_add₀ (by norm_num)]
    refine mul_le_mul_of_nonneg_right ?_ hten.le
    rw [← Nat.cast_one, ← Nat.cast_sub (digitCount_pos digits), zpow_natCast]
    exact_mod_cast pow_digitCount_le hdigits
  have hdigits₂ : digits * (10 : ℚ) ^ exponent < 10 ^ (digitCount digits + exponent : Int) := by
    rw [zpow_add₀ (by norm_num), zpow_natCast]
    exact mul_lt_mul_of_pos_right (by exact_mod_cast lt_pow_digitCount digits) hten
  constructor
  · by_contra hlt
    have hsmall : (10 : ℚ) ^ (digitCount digits + exponent : Int) ≤ 10 ^ (-400 : Int) :=
      zpow_le_zpow_right₀ (by norm_num) (by omega)
    have hleast : (2 : ℚ) ^ (-1075 : Int) ≤ (m - reach m e) * 2 ^ e := by
      have hm : (1 : ℚ) ≤ m := by exact_mod_cast h.pos
      calc (2 : ℚ) ^ (-1075 : Int) = 1 / 2 * 2 ^ minExponent := by
            rw [show (-1075 : Int) = -1 + minExponent from rfl, zpow_add₀ (by norm_num), zpow_neg_one,
              one_div]
        _ ≤ 1 / 2 * 2 ^ e := by
            refine mul_le_mul_of_nonneg_left ?_ (by norm_num)
            exact zpow_le_zpow_right₀ (by norm_num) h.le
        _ ≤ (m - reach m e) * 2 ^ e :=
            mul_le_mul_of_nonneg_right (by linarith [reach_le m e]) (two_zpow_pos e).le
    have hcompare : (10 : ℚ) ^ (-400 : Int) ≤ 2 ^ (-1075 : Int) := by
      rw [zpow_neg, zpow_neg]
      exact inv_anti₀ (two_zpow_pos 1075) two_pow_le_ten_pow
    linarith
  · by_contra hlt
    have hlarge : (10 : ℚ) ^ (400 : Int) ≤ 10 ^ (digitCount digits - 1 + exponent : Int) :=
      zpow_le_zpow_right₀ (by norm_num) (by omega)
    have he : e ≤ 971 := by
      by_contra hbig
      have hnormal := h.normal (by unfold minExponent; omega)
      have hfinite := h.finite
      simp only [infinityBits, minExponent, Nat.pow_eq, Nat.reducePow] at hfinite hnormal
      omega
    have hgreatest : ((m : ℚ) + 1 / 2) * 2 ^ e < 2 ^ (1075 : Int) := by
      have hm : (m : ℚ) + 1 ≤ 2 ^ 53 := by exact_mod_cast h.lt
      calc ((m : ℚ) + 1 / 2) * 2 ^ e < 2 ^ 53 * 2 ^ e :=
            mul_lt_mul_of_pos_right (by linarith) (two_zpow_pos e)
        _ = 2 ^ (53 + e) := by rw [zpow_add₀ (by norm_num), zpow_ofNat]
        _ ≤ 2 ^ (1075 : Int) := zpow_le_zpow_right₀ (by norm_num) (by omega)
    exact absurd (hlarge.trans (hdigits₁.trans hhigh)) (not_le.mpr (hgreatest.trans_le two_pow_le_ten_pow))

theorem nearest_eq (hparts : parts x = .finite negative m e) (h : IsDouble m e)
    (hround : RoundsTo m e (digits * 10 ^ exponent)) : nearest negative digits exponent = x := by
  have hdigits : digits ≠ 0 := by
    rintro rfl
    have hlow := hround.bounds.1
    have hm : (1 : ℚ) ≤ m := by exact_mod_cast h.pos
    rw [Nat.cast_zero, zero_mul, zero_div] at hlow
    linarith [reach_le m e]
  obtain ⟨hlow, hhigh⟩ := magnitude_bounds h hdigits hround
  have hquotient : RoundsTo m e ((digits * 10 ^ exponent.toNat : Nat) / (10 ^ (-exponent).toNat : Nat)) := by
    push_cast
    rw [pow_toNat (by norm_num) exponent, ← mul_assoc, mul_div_cancel_right₀ _ (by positivity)]
    exact hround
  rw [← (ofMagnitude_bitsOf hparts).1, ← quotientBits_eq h (by positivity) hquotient]
  unfold digitCount at hlow hhigh
  simp only [nearest]
  rw [if_neg (by omega), if_neg (by omega)]
  rfl

end Nearest

/-! ## Digits -/

theorem digitsValue_append (xs ys : List Char) :
    digitsValue (xs ++ ys) = digitsValue xs * 10 ^ ys.length + digitsValue ys := by
  -- the digits read so far go up by one place with each further digit
  have hshift (n : Nat) : ys.foldl (fun n c => 10 * n + (c.toNat - '0'.toNat)) n
      = n * 10 ^ ys.length + digitsValue ys := by
    unfold digitsValue
    induction ys generalizing n with
    | nil => simp
    | cons c ys ih =>
      rw [List.foldl_cons, ih, List.foldl_cons, ih (10 * 0 + _), List.length_cons, pow_succ]
      ring
  rw [digitsValue, List.foldl_append, hshift]
  rfl

theorem digitsValue_zeros (n : Nat) : digitsValue (List.replicate n '0') = 0 := by
  induction n with
  | zero => rfl
  | succ n ih => rw [List.replicate_succ', digitsValue_append, ih]; rfl

theorem digitsValue_toDigits (n : Nat) : digitsValue (Nat.toDigits 10 n) = n :=
  Nat.ofDigitChars_ten_toDigits

/-- Digits around a point are read as one number with its place. -/
theorem read?_pointed {whole fraction : List Char} (hwhole : whole ≠ [])
    (hdigits : ∀ c ∈ whole ++ fraction, c.isDigit = true) :
    read? (whole ++ '.' :: fraction) =
      some (nearest false (digitsValue (whole ++ fraction)) (-fraction.length)) := by
  have hmap : '.' ∈ (whole ++ '.' :: fraction).map Char.toLower :=
    List.mem_map.mpr ⟨'.', by simp, rfl⟩
  have hword (word : String) (hfree : '.' ∉ word.toList) :
      String.ofList ((whole ++ '.' :: fraction).map Char.toLower) ≠ word := by
    rintro rfl
    exact hfree (by rwa [String.toList_ofList])
  have hsign : readSign (whole ++ '.' :: fraction) = (false, whole ++ '.' :: fraction) := by
    cases whole with
    | nil => exact absurd rfl hwhole
    | cons c whole =>
      have hc : c.isDigit = true := hdigits c (by simp)
      unfold readSign
      split
      · simp_all
      · simp_all
      · rfl
  have hdecimal : readDecimal? (whole ++ '.' :: fraction)
      = some (digitsValue (whole ++ fraction), -(fraction.length : Int)) := by
    have htake : (whole ++ '.' :: fraction).takeWhile Char.isDigit = whole := by
      rw [List.takeWhile_append_of_pos fun c hc => hdigits c (by simp [hc])]
      simp
    have hdrop : (whole ++ '.' :: fraction).dropWhile Char.isDigit = '.' :: fraction := by
      rw [List.dropWhile_append_of_pos fun c hc => hdigits c (by simp [hc])]
      simp
    have htake' : fraction.takeWhile Char.isDigit = fraction :=
      List.takeWhile_eq_self_iff.mpr fun c hc => hdigits c (by simp [hc])
    have hdrop' : fraction.dropWhile Char.isDigit = [] :=
      List.dropWhile_eq_nil_iff.mpr fun c hc => hdigits c (by simp [hc])
    simp [readDecimal?, htake, hdrop, htake', hdrop', hwhole, readExponent?]
  unfold read?
  rw [hsign]
  dsimp only
  rw [if_neg (not_or.mpr ⟨hword "inf" (by decide), hword "infinity" (by decide)⟩),
    if_neg (hword "nan" (by decide)), hdecimal]
  rfl

/-! ## The text of a double -/

theorem isDigit_zeros {n : Nat} {c : Char} (h : c ∈ List.replicate n '0') : c.isDigit = true := by
  rw [List.eq_of_mem_replicate h]
  rfl

theorem positional_of_nonneg {d : Scientific} (h : 0 ≤ d.exponent) :
    d.positional ≠ [] ∧ (∀ c ∈ d.positional, c.isDigit = true) ∧
      digitsValue d.positional = d.digits * 10 ^ d.exponent.toNat := by
  have hdigits {c : Char} :=
    Nat.isDigit_of_mem_toDigits (b := 10) (n := d.digits) (c := c) (by decide) (by decide)
  unfold Scientific.positional
  rw [if_pos h]
  refine ⟨by simp [Nat.toDigits_ne_nil], fun c hc => ?_, ?_⟩
  · exact (List.mem_append.mp hc).elim hdigits isDigit_zeros
  · rw [digitsValue_append, digitsValue_toDigits, digitsValue_zeros, List.length_replicate]
    rfl

theorem positional_of_neg {d : Scientific} (h : d.exponent < 0) : ∃ whole fraction : List Char,
    whole ≠ [] ∧ (∀ c ∈ whole ++ fraction, c.isDigit = true) ∧
      d.positional = whole ++ '.' :: fraction ∧ digitsValue (whole ++ fraction) = d.digits ∧
        (fraction.length : Int) = -d.exponent := by
  have hdigits {c : Char} :=
    Nat.isDigit_of_mem_toDigits (b := 10) (n := d.digits) (c := c) (by decide) (by decide)
  have hvalue := digitsValue_toDigits d.digits
  unfold Scientific.positional
  rw [if_neg (by omega)]
  dsimp only
  generalize Nat.toDigits 10 d.digits = digits at *
  generalize hplaces : (-d.exponent).toNat = places
  split
  · refine ⟨digits.take (digits.length - places), digits.drop (digits.length - places), ?_, ?_, rfl, ?_, ?_⟩
    · intro hnil
      have := congrArg List.length hnil
      simp at this
      omega
    · rw [List.take_append_drop]
      exact fun c => hdigits
    · rw [List.take_append_drop, hvalue]
    · rw [List.length_drop]
      omega
  · refine ⟨['0'], List.replicate (places - digits.length) '0' ++ digits, by simp, ?_, rfl, ?_, ?_⟩
    · intro c hc
      rw [List.singleton_append, List.mem_cons, List.mem_append] at hc
      obtain rfl | hc | hc := hc
      · rfl
      · exact isDigit_zeros hc
      · exact hdigits hc
    · rw [digitsValue_append, digitsValue_append, digitsValue_zeros, hvalue]
      simp [digitsValue]
    · simp
      omega

section Text

variable {x : Float} {m : Nat} {e : Int}

theorem toList_plain (h : parts x = .finite false m e) :
    (plain x).toList = if m = 0 then ['0'] else (shortest m e).positional := by
  simp [plain, h]

/-- A whole number is written as digits, and read back if a point and a zero follow them. -/
theorem plain_of_whole (hparts : parts x = .finite false m e) (hwhole : m % 2 ^ (-e).toNat = 0) :
    (plain x).toList ≠ [] ∧ (∀ c ∈ (plain x).toList, c.isDigit = true) ∧
      nearest false (digitsValue ((plain x).toList ++ ['0'])) (-1) = x := by
  obtain ⟨hbits, ⟨rfl, rfl⟩ | hdouble⟩ := ofMagnitude_bitsOf hparts
  · rw [toList_plain hparts, if_pos rfl]
    exact ⟨List.cons_ne_nil _ _, by simp, hbits⟩
  · rw [toList_plain hparts, if_neg hdouble.pos.ne']
    have hexponent := (shortest_exponent_nonneg_iff hdouble).mpr hwhole
    obtain ⟨hne, hdigits, hvalue⟩ := positional_of_nonneg hexponent
    refine ⟨hne, hdigits, nearest_eq hparts hdouble ?_⟩
    have hround := shortest_roundsTo hdouble
    have hzero : digitsValue ['0'] = 0 := rfl
    rw [digitsValue_append, hvalue, hzero, List.length_singleton, pow_one, Nat.add_zero]
    push_cast
    rw [pow_toNat (by norm_num), show (-(shortest m e).exponent).toNat = 0 by omega, pow_zero, mul_one,
      zpow_neg_one, mul_assoc _ (10 : ℚ), mul_inv_cancel₀ (by norm_num), mul_one]
    exact hround

/-- A number with a fraction is written as digits with a point, and read back. -/
theorem plain_of_not_whole (hparts : parts x = .finite false m e) (hwhole : m % 2 ^ (-e).toNat ≠ 0) :
    ∃ whole fraction : List Char, whole ≠ [] ∧ (∀ c ∈ whole ++ fraction, c.isDigit = true) ∧
      (plain x).toList = whole ++ '.' :: fraction ∧
        nearest false (digitsValue (whole ++ fraction)) (-fraction.length) = x := by
  obtain ⟨-, ⟨rfl, rfl⟩ | hdouble⟩ := ofMagnitude_bitsOf hparts
  · exact absurd (Nat.zero_mod _) hwhole
  · rw [toList_plain hparts, if_neg hdouble.pos.ne']
    have hexponent : (shortest m e).exponent < 0 :=
      not_le.mp fun h => hwhole ((shortest_exponent_nonneg_iff hdouble).mp h)
    obtain ⟨whole, fraction, hne, hdigits, htext, hvalue, hplaces⟩ := positional_of_neg hexponent
    refine ⟨whole, fraction, hne, hdigits, htext, nearest_eq hparts hdouble ?_⟩
    rw [hvalue, hplaces, neg_neg]
    exact shortest_roundsTo hdouble

/-- A double is written with digits and a point. -/
def isPointed (x : Float) : Bool :=
  (marked x).toList.contains '.' && (marked x).toList.all fun c => c.isDigit || c == '.'

/-- Only finite doubles without a sign are written with digits and a point. -/
theorem parts_of_isPointed (h : isPointed x = true) : ∃ m e, parts x = .finite false m e := by
  obtain ⟨hpoint, hall⟩ := Bool.and_eq_true_iff.mp h
  cases hparts : parts x with
  | nan =>
    simp [marked, hparts] at hpoint
  | infinite negative =>
    cases negative <;> simp [marked, plain, isWhole, hparts] at hpoint
  | finite negative m e =>
    cases negative with
    | false => exact ⟨m, e, rfl⟩
    | true =>
      have hsign : '-' ∈ (marked x).toList := by
        unfold marked
        simp only [hparts]
        split <;> simp [plain, hparts]
      exact absurd (List.all_eq_true.mp hall '-' hsign) (by decide)

/-- A double whose text is digits with a point is read back from its text. -/
theorem read?_marked (h : isPointed x = true) : ∃ whole fraction : List Char,
    whole ≠ [] ∧ (∀ c ∈ whole ++ fraction, c.isDigit = true) ∧
      (marked x).toList = whole ++ '.' :: fraction ∧ read? (marked x).toList = some x := by
  suffices hsuff : ∃ whole fraction : List Char, whole ≠ [] ∧
      (∀ c ∈ whole ++ fraction, c.isDigit = true) ∧ (marked x).toList = whole ++ '.' :: fraction ∧
        nearest false (digitsValue (whole ++ fraction)) (-fraction.length) = x by
    obtain ⟨whole, fraction, hne, hdigits, htext, hnearest⟩ := hsuff
    refine ⟨whole, fraction, hne, hdigits, htext, ?_⟩
    rw [htext, read?_pointed hne hdigits, hnearest]
  obtain ⟨m, e, hparts⟩ := parts_of_isPointed h
  have hpoint : '.' ∈ (marked x).toList := by simpa using (Bool.and_eq_true_iff.mp h).1
  have hisWhole : isWhole x = (m % 2 ^ (-e).toNat == 0) := by simp [isWhole, hparts]
  have hmarked : marked x = if isWhole x && x.abs < 1e16 then plain x ++ ".0" else plain x := by
    simp [marked, hparts]
  by_cases hwhole : m % 2 ^ (-e).toNat = 0
  · obtain ⟨hne, hdigits, hnearest⟩ := plain_of_whole hparts hwhole
    split at hmarked
    · refine ⟨(plain x).toList, ['0'], hne, ?_, by rw [hmarked]; simp, hnearest⟩
      exact List.forall_mem_append.mpr ⟨hdigits, by simp⟩
    · -- without the mark there is no point
      rw [hmarked] at hpoint
      exact absurd (hdigits _ hpoint) (by decide)
  · obtain ⟨whole, fraction, hne, hdigits, htext, hnearest⟩ := plain_of_not_whole hparts hwhole
    refine ⟨whole, fraction, hne, hdigits, ?_, hnearest⟩
    rw [hmarked, hisWhole, if_neg (by simp [hwhole]), htext]

end Text

end ComponentMarkup.Decimal
