import FormulaGraph.Proofs.Number.Parts
/-!
# Whole numbers as doubles

A whole number is rounded to the nearest double. `wholeLimit` is half a step beyond the greatest
double: whole numbers below it are rounded to a finite double, and all others to infinity, so that
there is no double for them.

* `nearestBits_one_lt_iff`: the limit, for the bits of the rounded number.
* `isFinite_ofInt_iff`: the limit, for the number itself.
-/
namespace FormulaGraph

namespace Binary64

theorem roundHalfEven_bounds (num den : Nat) :
    num / den ≤ roundHalfEven num den ∧ roundHalfEven num den ≤ num / den + 1 := by
  simp only [roundHalfEven]
  split_ifs <;> omega

theorem floorLog2_one {n : Nat} (h : 0 < n) : floorLog2 n 1 = n.log2 := by
  have hle : 2 ^ n.log2 ≤ n := Nat.log2_self_le (Nat.ne_of_gt h)
  have hone : Nat.log2 1 = 0 := by decide
  simp [floorLog2, hone, hle]

/-- The mantissa of a whole number before it is cut off at infinity. -/
def wholeMantissa (n : Nat) : Nat :=
  if 52 ≤ n.log2 then roundHalfEven n (2 ^ (n.log2 - 52)) else n * 2 ^ (52 - n.log2)

theorem roundHalfEven_one (n : Nat) : roundHalfEven n 1 = n := by
  simp [roundHalfEven, Nat.mod_one]

theorem nearestBits_one {n : Nat} (h : 0 < n) :
    nearestBits n 1 = min ((n.log2 + 1022) * 2 ^ 52 + wholeMantissa n) infinityBits := by
  have hpos : ¬(n = 0 ∨ 1 = 0) := by omega
  have hscale : max ((n.log2 : ℤ) - 52) (-1074) = n.log2 - 52 := by omega
  have hbias : ((n.log2 : ℤ) - 52 + 1074).toNat = n.log2 + 1022 := by omega
  simp only [nearestBits, if_neg hpos, floorLog2_one h, hscale, hbias, Nat.pow_eq, wholeMantissa]
  by_cases hlarge : 52 ≤ n.log2
  · have hnonneg : (0 : ℤ) ≤ n.log2 - 52 := by omega
    have hshift : ((n.log2 : ℤ) - 52).toNat = n.log2 - 52 := by omega
    rw [if_pos hnonneg, if_pos hlarge, hshift, Nat.one_mul]
  · have hneg : ¬(0 : ℤ) ≤ n.log2 - 52 := by omega
    have hshift : (-((n.log2 : ℤ) - 52)).toNat = 52 - n.log2 := by omega
    rw [if_neg hneg, if_neg hlarge, hshift, roundHalfEven_one]

theorem wholeMantissa_bounds {n : Nat} (h : 0 < n) :
    2 ^ 52 ≤ wholeMantissa n ∧ wholeMantissa n ≤ 2 ^ 53 := by
  have hlow : 2 ^ n.log2 ≤ n := Nat.log2_self_le (Nat.ne_of_gt h)
  have hhigh : n < 2 ^ (n.log2 + 1) := Nat.lt_log2_self
  rw [wholeMantissa]
  split
  · rename_i hlarge
    obtain ⟨k, hk⟩ := Nat.exists_eq_add_of_le hlarge
    rw [hk] at hlow hhigh ⊢
    rw [Nat.add_sub_cancel_left]
    obtain ⟨hfloor, hceil⟩ := roundHalfEven_bounds n (2 ^ k)
    have hleast : 2 ^ 52 ≤ n / 2 ^ k :=
      (Nat.le_div_iff_mul_le (Nat.two_pow_pos k)).2 (by rwa [← Nat.pow_add])
    have hmost : n / 2 ^ k < 2 ^ 53 :=
      (Nat.div_lt_iff_lt_mul (Nat.two_pow_pos k)).2
        (by rwa [← Nat.pow_add, ← Nat.add_right_comm 52 k 1])
    omega
  · rename_i hsmall
    obtain ⟨k, hk⟩ := Nat.exists_eq_add_of_lt (Nat.lt_of_not_le hsmall)
    have hshift : 52 - n.log2 = k + 1 := by omega
    rw [hshift]
    constructor
    · calc 2 ^ 52 = 2 ^ n.log2 * 2 ^ (k + 1) := by rw [← Nat.pow_add]; congr 1
        _ ≤ n * 2 ^ (k + 1) := Nat.mul_le_mul_right _ hlow
    · calc n * 2 ^ (k + 1) ≤ 2 ^ (n.log2 + 1) * 2 ^ (k + 1) := Nat.mul_le_mul_right _ hhigh.le
        _ = 2 ^ 53 := by rw [← Nat.pow_add]; congr 1; omega

/-- A quotient is rounded to an even number or beyond from half a step below it. -/
theorem roundHalfEven_lt_iff {n half j : Nat} (hhalf : 0 < half) :
    roundHalfEven n (2 * half) < 2 * j ↔ n + half < 2 * half * (2 * j) := by
  have hdiv := Nat.div_add_mod n (2 * half)
  have hmod := Nat.mod_lt n (Nat.mul_pos Nat.two_pos hhalf)
  simp only [roundHalfEven]
  generalize n / (2 * half) = q at *
  generalize n % (2 * half) = r at *
  rcases Nat.lt_or_ge (q + 1) (2 * j) with hlt | hge
  · have hmul : 2 * half * (q + 2) ≤ 2 * half * (2 * j) := Nat.mul_le_mul_left _ hlt
    rw [Nat.mul_add] at hmul
    split_ifs <;> omega
  · rcases Nat.eq_or_lt_of_le hge with heq | hgt
    · rw [heq, Nat.mul_add]
      split_ifs <;> omega
    · have hmul : 2 * half * (2 * j) ≤ 2 * half * q := Nat.mul_le_mul_left _ (by omega)
      split_ifs <;> omega

/-- A number is rounded up beyond its binade from half a step below the end. -/
theorem wholeMantissa_lt_iff {n k : Nat} (h : n.log2 = k + 53) :
    wholeMantissa n < 2 ^ 53 ↔ n + 2 ^ k < 2 ^ (k + 54) := by
  have hshift : k + 53 - 52 = k + 1 := by omega
  have htop : 2 * 2 ^ k * (2 * 2 ^ 52) = (2 : ℕ) ^ (k + 54) := by ring
  have hend : (2 : ℕ) ^ 53 = 2 * 2 ^ 52 := by ring
  rw [wholeMantissa, h, if_pos (by omega), hshift, Nat.pow_succ', ← htop, hend]
  exact roundHalfEven_lt_iff (Nat.two_pow_pos k)

theorem nearestBits_one_pos {n : Nat} (h : 0 < n) : 0 < nearestBits n 1 := by
  obtain ⟨hlow, -⟩ := wholeMantissa_bounds h
  rw [nearestBits_one h, infinityBits, Nat.pow_eq]
  omega

/-- Whole numbers from here on are rounded to infinity. -/
def wholeLimit : Nat := 2 ^ 1024 - 2 ^ 970

theorem wholeLimit_bounds : 2 ^ 1023 ≤ wholeLimit ∧ wholeLimit ≤ 2 ^ 1024 := by
  rw [wholeLimit]
  have h1 : (2 : ℕ) ^ 1024 = 2 ^ 54 * 2 ^ 970 := by rw [← Nat.pow_add]
  have h2 : (2 : ℕ) ^ 1023 = 2 ^ 53 * 2 ^ 970 := by rw [← Nat.pow_add]
  omega

theorem two_pow_le_wholeLimit {k : Nat} (h : k < 1024) : 2 ^ k ≤ wholeLimit :=
  (pow_le_pow_right₀ one_le_two (Nat.le_of_lt_succ h)).trans wholeLimit_bounds.1

/-- The whole numbers below the limit are rounded to doubles. -/
theorem nearestBits_one_lt_iff {n : Nat} (h : 0 < n) :
    nearestBits n 1 < infinityBits ↔ n < wholeLimit := by
  obtain ⟨hlow, hhigh⟩ := wholeMantissa_bounds h
  obtain ⟨hleast, hmost⟩ := wholeLimit_bounds
  have hexact : nearestBits n 1 < infinityBits ↔
      (n.log2 + 1022) * 2 ^ 52 + wholeMantissa n < 2047 * 2 ^ 52 := by
    rw [nearestBits_one h, infinityBits, Nat.pow_eq]
    omega
  rw [hexact]
  have hlog : ∀ k, n.log2 < k ↔ n < 2 ^ k := fun k => Nat.log2_lt (Nat.ne_of_gt h)
  rcases lt_trichotomy n.log2 1023 with hlt | heq | hgt
  · have hn : n < 2 ^ 1023 := (hlog 1023).1 hlt
    exact iff_of_true (by omega) (hn.trans_le hleast)
  · have hlast := wholeMantissa_lt_iff (n := n) (k := 970) heq
    rw [show 970 + 54 = 1024 by decide] at hlast
    rw [wholeLimit, Nat.lt_sub_iff_add_lt, ← hlast, heq]
    omega
  · have hn : ¬n.log2 < 1024 := Nat.not_lt.2 hgt
    exact iff_of_false (by omega) fun hbelow => hn ((hlog 1024).2 (hbelow.trans_le hmost))

theorem nearestBits_one_le (n : Nat) : nearestBits n 1 ≤ infinityBits := by
  unfold nearestBits
  split
  · exact Nat.zero_le _
  · exact Nat.min_le_right _ _

/-- A number with more than 400 digits is beyond the limit. -/
theorem wholeLimit_le_of_digitCount {n : Nat} (hn : 0 < n) (h : 400 < digitCount n) :
    wholeLimit ≤ n := by
  have hdigits : (10 : ℚ) ^ (400 : ℤ) ≤ n :=
    (zpow_le_zpow_right₀ (by norm_num) (by omega)).trans (digitCount_bounds hn).1
  have hlarge : (2 : ℚ) ^ (1024 : ℤ) < n := lt_ten_zpow.trans_le hdigits
  have hlarge : 2 ^ 1024 < n := by exact_mod_cast hlarge
  exact wholeLimit_bounds.2.trans hlarge.le

/-- Cutting off numbers with many digits makes no difference. -/
theorem bitsOfDecimal_ofNat {n : Nat} (h : 0 < n) : bitsOfDecimal (.ofNat n) = nearestBits n 1 := by
  have hmin : ¬(n = 0 ∨ (0 : ℤ) + digitCount n < -400) := by omega
  have hone : n * Nat.pow 10 (0 : ℤ).toNat = n := Nat.mul_one n
  rw [bitsOfDecimal, Decimal.ofNat]
  dsimp only
  rw [if_neg hmin, if_pos (Int.le_refl 0), hone]
  split
  · rename_i hdigits
    have hlimit := (nearestBits_one_lt_iff h).not.2
      (Nat.not_lt.2 (wholeLimit_le_of_digitCount h (by omega)))
    have hle := nearestBits_one_le n
    rw [signBits, if_neg Bool.false_ne_true]
    omega
  · rw [signBits, if_neg Bool.false_ne_true, Nat.zero_add]

end Binary64

namespace Double

open Binary64

theorem ofInt_ofNat (n : Nat) :
    (Scalar.ofInt (n : ℤ) : Float) = floatOfBits (bitsOfDecimal (.ofNat n)) := by
  have hsign : decide ((n : ℤ) < 0) = false := decide_eq_false (by omega)
  rw [Scalar.ofInt, Decimal.ofInt, hsign, Int.natAbs_natCast]
  rfl

/-- A positive whole number is above zero when it is rounded. -/
theorem zero_lt_ofInt {i : ℤ} (h : 0 < i) :
    Scalar.lt Scalar.zero (Scalar.ofInt i : Float) = true := by
  obtain ⟨n, rfl⟩ := Int.eq_ofNat_of_zero_le h.le
  have hn : 0 < n := by exact_mod_cast h
  rw [ofInt_ofNat, bitsOfDecimal_ofNat hn]
  rcases Nat.lt_or_eq_of_le (nearestBits_one_le n) with hlt | heq
  · obtain ⟨m, q, hm, hparts⟩ := exists_ofFloat_floatOfBits (nearestBits_one_pos hn) hlt
    exact zero_lt_of_ofFloat hm hparts
  · rw [heq]
    decide +kernel

/-- The positive whole numbers that are rounded to a double are those below the limit. -/
theorem isFinite_ofInt_iff {i : ℤ} (h : 0 < i) :
    Scalar.isFinite (Scalar.ofInt i : Float) = true ↔ i < wholeLimit := by
  obtain ⟨n, rfl⟩ := Int.eq_ofNat_of_zero_le h.le
  have hn : 0 < n := by exact_mod_cast h
  rw [ofInt_ofNat, bitsOfDecimal_ofNat hn, Nat.cast_lt, ← nearestBits_one_lt_iff hn]
  rcases Nat.lt_or_eq_of_le (nearestBits_one_le n) with hlt | heq
  · obtain ⟨m, q, -, hparts⟩ := exists_ofFloat_floatOfBits (nearestBits_one_pos hn) hlt
    refine iff_of_true ?_ hlt
    simp only [Scalar.isFinite, Scalar.special?, hparts, Option.isNone_none]
  · refine iff_of_false ?_ (Nat.not_lt.2 heq.ge)
    rw [heq]
    simp only [Scalar.isFinite, Scalar.special?, ofFloat_infinity]
    decide

end Double

end FormulaGraph
