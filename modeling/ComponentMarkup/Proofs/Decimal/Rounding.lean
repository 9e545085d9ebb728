import ComponentMarkup.Decimal.Binary
import Mathlib.Algebra.Order.Field.Power
import Mathlib.Data.Nat.Cast.Order.Field
import Mathlib.Data.Rat.Floor
import Mathlib.Tactic.Linarith
import Mathlib.Tactic.Positivity
import Mathlib.Tactic.Ring

/-!
# Rounding to the nearest double

A finite double is `m * 2 ^ e`. The numbers that round to it lie between the middles to its two
neighbours, of which the one below a power of two is nearer; the middles themselves belong to the double
if its mantissa is even. `RoundsTo` says so for rational numbers, and every quotient of whole numbers
that rounds to a double is given the bits of that double (`quotientBits_eq`).
-/

namespace ComponentMarkup.Decimal

variable {m num den : Nat} {e : Int} {x : ℚ}

/-! ## Powers with whole exponents -/

/-- A power with a whole exponent as a quotient of powers, one of which is one. -/
theorem pow_toNat {b : ℚ} (hb : b ≠ 0) (k : Int) : b ^ k.toNat = b ^ k * b ^ (-k).toNat := by
  rcases Int.le_total 0 k with hk | hk
  · obtain ⟨n, rfl⟩ := Int.eq_ofNat_of_zero_le hk
    simp
  · obtain ⟨n, hn⟩ := Int.eq_ofNat_of_zero_le (Int.neg_nonneg_of_nonpos hk)
    obtain rfl : k = -(n : Int) := by omega
    simp [hb]

theorem two_zpow_pos (k : Int) : (0 : ℚ) < 2 ^ k :=
  zpow_pos (by norm_num) k

theorem ten_zpow_pos (k : Int) : (0 : ℚ) < 10 ^ k :=
  zpow_pos (by norm_num) k

/-! ## Finite doubles -/

/-- Mantissa and exponent of a finite double that is not zero. -/
structure IsDouble (m : Nat) (e : Int) : Prop where
  pos : 0 < m
  lt : m < 2 ^ 53
  le : minExponent ≤ e
  /-- All but the doubles closest to zero have a mantissa of 53 bits. -/
  normal : minExponent < e → 2 ^ 52 ≤ m
  finite : (e - minExponent).toNat * 2 ^ 52 + m < infinityBits

/-- The magnitude bits of the double `m * 2 ^ e`. -/
def bitsOf (m : Nat) (e : Int) : Nat :=
  (e - minExponent).toNat * 2 ^ 52 + m

/-- The parts of a double determine its bits. -/
theorem bits_of_parts {bits : Nat} {negative : Bool} (hbits : bits < 2 ^ 64)
    (h : Parts.ofBits bits = .finite negative m e) :
    bits = (if negative then 2 ^ 63 else 0) + bitsOf m e ∧
      (m = 0 ∧ e = minExponent ∨ IsDouble m e) := by
  simp only [Parts.ofBits, Nat.pow_eq, Nat.reducePow, Nat.reduceSub] at h
  split at h
  · split at h <;> cases h
  · rename_i hfinite
    split at h
    · rename_i hzero
      obtain ⟨rfl, rfl, rfl⟩ := Parts.finite.inj h
      constructor
      · have hplace : (minExponent - minExponent).toNat = 0 := rfl
        rw [bitsOf, hplace]
        split <;> simp_all <;> omega
      · rcases Nat.eq_zero_or_pos (bits % 4503599627370496) with hm | hm
        · exact .inl ⟨hm, rfl⟩
        · refine .inr ⟨hm, by omega, Int.le_refl _, fun hlt => absurd hlt (Int.lt_irrefl _), ?_⟩
          simp [infinityBits]
          omega
    · rename_i hnormal
      obtain ⟨rfl, rfl, rfl⟩ := Parts.finite.inj h
      rw [Int.ofNat_eq_natCast]
      have hplace : ((((bits / 4503599627370496 % 2048 : Nat) : Int) - 1 + minExponent)
          - minExponent).toNat = bits / 4503599627370496 % 2048 - 1 := by
        omega
      refine ⟨?_, .inr ⟨by omega, by omega, by omega, fun _ => by omega, ?_⟩⟩
      · rw [bitsOf, hplace]
        split <;> simp_all <;> omega
      · rw [hplace]
        simp [infinityBits]
        omega

/-! ## The numbers that round to a double -/

/-- How far below its mantissa, in units of the last place, the numbers begin that round to a
double. -/
def reach (m : Nat) (e : Int) : ℚ :=
  if m = 2 ^ 52 ∧ minExponent < e then 1 / 4 else 1 / 2

/-- A number rounds to the double `m * 2 ^ e`. -/
def RoundsTo (m : Nat) (e : Int) (x : ℚ) : Prop :=
  if m % 2 = 0 then m - reach m e ≤ x / 2 ^ e ∧ x / 2 ^ e ≤ m + 1 / 2
  else m - reach m e < x / 2 ^ e ∧ x / 2 ^ e < m + 1 / 2

instance (m : Nat) (e : Int) (x : ℚ) : Decidable (RoundsTo m e x) :=
  inferInstanceAs (Decidable (if m % 2 = 0 then _ else _))

theorem reach_pos (m : Nat) (e : Int) : 0 < reach m e := by
  unfold reach
  split <;> norm_num

theorem reach_le (m : Nat) (e : Int) : reach m e ≤ 1 / 2 := by
  unfold reach
  split <;> norm_num

/-- Numbers strictly between the ends round to the double. -/
theorem roundsTo_of_lt (hlow : m - reach m e < x / 2 ^ e) (hhigh : x / 2 ^ e < m + 1 / 2) :
    RoundsTo m e x := by
  unfold RoundsTo
  split
  · exact ⟨hlow.le, hhigh.le⟩
  · exact ⟨hlow, hhigh⟩

theorem RoundsTo.bounds (h : RoundsTo m e x) :
    m - reach m e ≤ x / 2 ^ e ∧ x / 2 ^ e ≤ m + 1 / 2 ∧
      (m % 2 = 1 → m - reach m e < x / 2 ^ e ∧ x / 2 ^ e < m + 1 / 2) := by
  unfold RoundsTo at h
  split at h
  · exact ⟨h.1, h.2, fun hodd => by omega⟩
  · exact ⟨h.1.le, h.2.le, fun _ => h⟩

/-! ## Rounding quotients -/

theorem roundHalfEven_eq {n : Nat} (hden : 0 < den) (hlow : (n : ℚ) - 1 / 2 ≤ num / den)
    (hhigh : (num : ℚ) / den ≤ n + 1 / 2)
    (hodd : n % 2 = 1 → (n : ℚ) - 1 / 2 < num / den ∧ (num : ℚ) / den < n + 1 / 2) :
    roundHalfEven num den = n := by
  have hpos : (0 : ℚ) < den := by exact_mod_cast hden
  -- the bounds in whole numbers
  have hlow' : 2 * (n * den) ≤ 2 * num + den := by
    rw [le_div_iff₀ hpos] at hlow
    have : (2 * (n * den) : ℚ) ≤ 2 * num + den := by linarith
    exact_mod_cast this
  have hhigh' : 2 * num ≤ 2 * (n * den) + den := by
    rw [div_le_iff₀ hpos] at hhigh
    have : (2 * num : ℚ) ≤ 2 * (n * den) + den := by linarith
    exact_mod_cast this
  have hodd' : n % 2 = 1 → 2 * (n * den) < 2 * num + den ∧ 2 * num < 2 * (n * den) + den := by
    intro h
    obtain ⟨h₁, h₂⟩ := hodd h
    rw [lt_div_iff₀ hpos] at h₁
    rw [div_lt_iff₀ hpos] at h₂
    have h₁' : (2 * (n * den) : ℚ) < 2 * num + den := by linarith
    have h₂' : (2 * num : ℚ) < 2 * (n * den) + den := by linarith
    exact ⟨by exact_mod_cast h₁', by exact_mod_cast h₂'⟩
  have hsplit := Nat.div_add_mod num den
  have hmod := Nat.mod_lt num hden
  unfold roundHalfEven
  dsimp only
  generalize num / den = f at *
  generalize num % den = r at *
  -- `n` is the quotient rounded down or the number after it
  obtain rfl | rfl : n = f ∨ n = f + 1 := by
    rcases Nat.lt_trichotomy n f with hlt | heq | hgt
    · have hmul := Nat.mul_le_mul_right den hlt
      rw [Nat.add_one_mul] at hmul
      rw [Nat.mul_comm den f] at hsplit
      omega
    · exact .inl heq
    · rcases Nat.lt_or_ge (f + 1) n with hlt | hge
      · have hmul := Nat.mul_le_mul_right den hlt
        rw [Nat.add_one_mul, Nat.add_one_mul] at hmul
        rw [Nat.mul_comm den f] at hsplit
        omega
      · exact .inr (by omega)
  · rw [Nat.mul_comm den n] at hsplit
    split
    · rfl
    · split
      · omega
      · have heven : n % 2 = 0 := by
          by_contra hne
          have := hodd' (by omega)
          omega
        omega
  · rw [Nat.mul_comm den f] at hsplit
    rw [Nat.add_one_mul f den] at hlow' hhigh' hodd'
    split
    · omega
    · split
      · rfl
      · have heven : (f + 1) % 2 = 0 := by
          by_contra hne
          have := hodd' (by omega)
          omega
        omega

/-- The exponent of a quotient is the one at which it has 53 bits, but not less than the least. -/
theorem quotientExponent_spec (hnum : num ≠ 0) (hden : den ≠ 0) :
    ∃ p : Int, quotientExponent num den = max p minExponent ∧
      2 ^ 52 * (2 : ℚ) ^ p ≤ num / den ∧ (num : ℚ) / den < 2 ^ 53 * 2 ^ p := by
  have hden' : (0 : ℚ) < den := by exact_mod_cast Nat.pos_of_ne_zero hden
  have hbounds {n : Nat} (hn : n ≠ 0) :
      (2 : ℚ) ^ (n.log2 : Int) ≤ n ∧ (n : ℚ) < 2 ^ ((n.log2 : Int) + 1) := by
    constructor
    · exact_mod_cast Nat.log2_self_le hn
    · exact_mod_cast Nat.lt_log2_self
  obtain ⟨hnum₁, hnum₂⟩ := hbounds hnum
  obtain ⟨hden₁, hden₂⟩ := hbounds hden
  generalize hguess : (num.log2 : Int) - den.log2 - 52 = guess
  have hlow : 2 ^ 52 * (2 : ℚ) ^ (guess - 1) ≤ num / den := by
    rw [le_div_iff₀ hden']
    calc 2 ^ 52 * (2 : ℚ) ^ (guess - 1) * den
        ≤ 2 ^ (52 : Int) * 2 ^ (guess - 1) * 2 ^ ((den.log2 : Int) + 1) :=
          mul_le_mul_of_nonneg_left hden₂.le (by positivity)
      _ = 2 ^ (num.log2 : Int) := by
          rw [← zpow_add₀ (by norm_num), ← zpow_add₀ (by norm_num)]
          congr 1
          omega
      _ ≤ num := hnum₁
  have hhigh : (num : ℚ) / den < 2 ^ 53 * 2 ^ guess := by
    rw [div_lt_iff₀ hden']
    calc (num : ℚ) < 2 ^ ((num.log2 : Int) + 1) := hnum₂
      _ = 2 ^ (53 : Int) * 2 ^ guess * 2 ^ (den.log2 : Int) := by
          rw [← zpow_add₀ (by norm_num), ← zpow_add₀ (by norm_num)]
          congr 1
          omega
      _ ≤ 2 ^ 53 * 2 ^ guess * den := mul_le_mul_of_nonneg_left hden₁ (by positivity)
  have hfits : 2 ^ 52 * den * 2 ^ guess.toNat ≤ num * 2 ^ (-guess).toNat ↔
      2 ^ 52 * (2 : ℚ) ^ guess ≤ num / den := by
    have hpow : (0 : ℚ) < 2 ^ (-guess).toNat := by positivity
    have hscaled : 2 ^ 52 * (2 : ℚ) ^ guess * den * 2 ^ (-guess).toNat
        = (2 ^ 52 * den * 2 ^ guess.toNat : Nat) := by
      push_cast
      rw [pow_toNat (by norm_num) guess]
      ring
    rw [le_div_iff₀ hden', ← mul_le_mul_iff_left₀ hpow, hscaled]
    exact_mod_cast Iff.rfl
  unfold quotientExponent
  simp only [Nat.pow_eq, hguess, hfits]
  split
  · exact ⟨guess, rfl, ‹_›, hhigh⟩
  · refine ⟨guess - 1, rfl, hlow, ?_⟩
    rename_i hfalse
    rw [zpow_sub₀ (by norm_num), zpow_one]
    linarith

theorem cast_quotient (k : Int) :
    ((num * 2 ^ (-k).toNat : Nat) : ℚ) / (den * 2 ^ k.toNat : Nat) = num / den / 2 ^ k := by
  have hpow : (2 : ℚ) ^ (-k).toNat ≠ 0 := by positivity
  push_cast
  rw [pow_toNat (by norm_num) k, ← mul_assoc, mul_div_mul_right _ _ hpow, div_div]

/-- A quotient that rounds to a double has its exponent, or the one before if it lies below a double
that is a power of two. -/
theorem quotientExponent_of_roundsTo (h : IsDouble m e) (hnum : num ≠ 0) (hden : den ≠ 0)
    (hround : RoundsTo m e (num / den)) :
    quotientExponent num den = e ∨ (quotientExponent num den = e - 1 ∧ m = 2 ^ 52 ∧ minExponent < e ∧
      (num : ℚ) / den / 2 ^ e < 2 ^ 52) := by
  obtain ⟨hlow, hhigh, -⟩ := hround.bounds
  obtain ⟨p, hexponent, hp₁, hp₂⟩ := quotientExponent_spec hnum hden
  rw [hexponent]
  -- both bounds of the quotient in units of the last place
  have hunits (c : ℚ) : c * 2 ^ p / 2 ^ e = c * 2 ^ (p - e) := by
    rw [zpow_sub₀ (by norm_num), mul_div_assoc]
  replace hp₁ := div_le_div_of_nonneg_right hp₁ (two_zpow_pos e).le
  replace hp₂ := div_lt_div_of_pos_right hp₂ (two_zpow_pos e)
  rw [hunits] at hp₁ hp₂
  generalize (num : ℚ) / den / 2 ^ e = x at *
  have hle : p ≤ e := by
    by_contra hlt
    have hpow : (2 : ℚ) ^ (1 : Int) ≤ 2 ^ (p - e) := zpow_le_zpow_right₀ (by norm_num) (by omega)
    have hm : (m : ℚ) + 1 ≤ 2 ^ 53 := by exact_mod_cast h.lt
    rw [zpow_one] at hpow
    linarith
  rcases Int.lt_or_eq_of_le h.le with hmin | hmin
  · rcases Int.lt_or_eq_of_le hle with hlt | heq
    · have hpow : (2 : ℚ) ^ (p - e) ≤ 2 ^ (-1 : Int) := zpow_le_zpow_right₀ (by norm_num) (by omega)
      norm_num at hpow
      have hbelow : x < 2 ^ 52 := by linarith
      have hm : m = 2 ^ 52 := by
        have hge := h.normal hmin
        have hlt : (m : ℚ) < 2 ^ 52 + 1 := by linarith [reach_le m e]
        have : m < 2 ^ 52 + 1 := by exact_mod_cast hlt
        omega
      have hnear : e - 1 ≤ p := by
        by_contra hfar
        have hpow : (2 : ℚ) ^ (p - e) ≤ 2 ^ (-2 : Int) := zpow_le_zpow_right₀ (by norm_num) (by omega)
        norm_num at hpow
        have hge : (2 : ℚ) ^ 52 ≤ m := by exact_mod_cast h.normal hmin
        linarith [reach_le m e]
      exact .inr ⟨by omega, hm, hmin, hbelow⟩
    · exact .inl (by omega)
  · exact .inl (by omega)

theorem quotientBits_eq (h : IsDouble m e) (hden : den ≠ 0) (hround : RoundsTo m e (num / den)) :
    quotientBits num den = bitsOf m e := by
  obtain ⟨hlow, hhigh, hodd⟩ := hround.bounds
  have hreach := reach_le m e
  have hnum : num ≠ 0 := by
    rintro rfl
    have hm : (1 : ℚ) ≤ m := by exact_mod_cast h.pos
    rw [Nat.cast_zero, zero_div, zero_div] at hlow
    linarith
  have hfinite : min infinityBits (bitsOf m e) = bitsOf m e := min_eq_right h.finite.le
  unfold quotientBits
  rw [if_neg hnum]
  simp only [Nat.pow_eq]
  rcases quotientExponent_of_roundsTo h hnum hden hround with hsame | ⟨hbefore, rfl, hmin, hbelow⟩
  · rw [hsame, roundHalfEven_eq (n := m) (by positivity)]
    · exact hfinite
    · rw [cast_quotient]
      linarith
    · rwa [cast_quotient]
    · intro hm
      rw [cast_quotient]
      exact ⟨by linarith [(hodd hm).1], (hodd hm).2⟩
  · -- the mantissa rounds up to `2 ^ 53` and carries
    have hdouble : (num : ℚ) / den / 2 ^ (e - 1) = 2 * (num / den / 2 ^ e) := by
      rw [zpow_sub₀ (by norm_num), zpow_one]
      ring
    have hcarry : (e - 1 - minExponent).toNat * 2 ^ 52 + 2 ^ 53 = bitsOf (2 ^ 52) e := by
      unfold bitsOf
      omega
    rw [reach, if_pos ⟨rfl, hmin⟩] at hlow
    push_cast at hlow
    rw [hbefore, roundHalfEven_eq (n := 2 ^ 53) (by positivity)]
    · rw [hcarry]
      exact hfinite
    · rw [cast_quotient, hdouble]
      push_cast
      linarith
    · rw [cast_quotient, hdouble]
      push_cast
      linarith
    · exact fun hm => by omega

end ComponentMarkup.Decimal
