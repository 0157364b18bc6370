import FormulaGraph.Proofs.Number.HalfEven
import Mathlib.Algebra.Order.Field.Power
/-!
# Rounding to doubles

A positive double is `m · 2 ^ q` for one pair of a mantissa and an exponent (`Canonical`). The
numbers nearest to it are an interval around it (`Rounds`): half a step up, half a step down, or a
quarter where the doubles below stand twice as close. The ends of the interval belong to it for an
even mantissa.

The scale of `nearestBits` is the exponent of the double for every number in the interval but those
below a power of two, which are rounded on a finer scale and carry. In both cases the pattern is
that of the double.

* `roundHalfEven_eq`: a quotient near a natural is rounded to it.
* `nearestBits_of_rounds`: a ratio in the interval of a double has the bits of the double.
* `bitsOfDecimal_of_rounds`: and so has a decimal.
-/
namespace FormulaGraph

/-- The numbers between `low` and `high`, which belong to them if `m` is even. -/
structure Spans (m : Nat) (low high x : ℚ) : Prop where
  low_le : low ≤ x
  le_high : x ≤ high
  strict : m % 2 = 1 → low < x ∧ x < high

/-- Only the proportions matter. -/
theorem spans_mul_right_iff {m : Nat} {low high x c : ℚ} (hc : 0 < c) :
    Spans m (low * c) (high * c) (x * c) ↔ Spans m low high x := by
  constructor
  · rintro ⟨hlow, hhigh, hstrict⟩
    exact ⟨le_of_mul_le_mul_right hlow hc, le_of_mul_le_mul_right hhigh hc, fun hodd =>
      (hstrict hodd).imp (lt_of_mul_lt_mul_right · hc.le) (lt_of_mul_lt_mul_right · hc.le)⟩
  · rintro ⟨hlow, hhigh, hstrict⟩
    exact ⟨mul_le_mul_of_nonneg_right hlow hc.le, mul_le_mul_of_nonneg_right hhigh hc.le,
      fun hodd => (hstrict hodd).imp (mul_lt_mul_of_pos_right · hc)
        (mul_lt_mul_of_pos_right · hc)⟩

theorem Spans.nearestEven {k : Nat} {x : ℚ} (h : Spans k (k - 1 / 2) (k + 1 / 2) x) :
    NearestEven x k := by
  have hlow : -(1 / 2) ≤ x - k := by linarith [h.low_le]
  have hhigh : x - k ≤ 1 / 2 := by linarith [h.le_high]
  refine ⟨?_, fun htie => ?_⟩
  · rw [Int.cast_natCast]
    exact abs_le.2 ⟨hlow, hhigh⟩
  · rw [Int.even_coe_nat, ← Nat.not_odd_iff_even, Nat.odd_iff]
    intro hodd
    obtain ⟨hlt, hgt⟩ := h.strict hodd
    rw [Int.cast_natCast, abs_eq (by norm_num)] at htie
    rcases htie with htie | htie <;> linarith

/-- A quotient within half of a natural is rounded to it, a tie if the natural is even. -/
theorem roundHalfEven_eq {num den k : Nat} (hden : 0 < den)
    (h : Spans k (k - 1 / 2) (k + 1 / 2) (num / den)) : roundHalfEven num den = k := by
  exact_mod_cast (nearestEven_roundHalfEven hden).unique h.nearestEven

/-! ## Powers -/

theorem zpow_of_nonneg (b : ℚ) {e : ℤ} (h : 0 ≤ e) : b ^ e = b ^ e.toNat := by
  rw [← zpow_natCast, Int.toNat_of_nonneg h]

theorem two_zpow_add (q : ℤ) (k : ℕ) : (2 : ℚ) ^ (q + k) = 2 ^ k * 2 ^ q := by
  rw [zpow_add₀ two_ne_zero, zpow_natCast, mul_comm]

theorem zpow_of_neg (b : ℚ) {e : ℤ} (h : e < 0) : b ^ e = (b ^ (-e).toNat)⁻¹ := by
  rw [← zpow_natCast, Int.toNat_of_nonneg (by omega), zpow_neg, inv_inv]

namespace Binary64

theorem ratio_pos (m : Nat) (q : ℤ) : 0 < (ratio m q).2 := by
  unfold ratio
  split
  · exact Nat.one_pos
  · exact Nat.pow_pos (by decide)

theorem ratio_eq (m : Nat) (q : ℤ) : ((ratio m q).1 / (ratio m q).2 : ℚ) = m * 2 ^ q := by
  unfold ratio
  split
  · rename_i h
    simp [zpow_of_nonneg 2 h]
  · rename_i h
    simp [zpow_of_neg 2 (Int.not_le.1 h), div_eq_mul_inv]

/-! ## The scale -/

theorem log2_bounds {n : Nat} (h : 0 < n) :
    (2 : ℚ) ^ (n.log2 : ℤ) ≤ n ∧ (n : ℚ) < 2 ^ ((n.log2 : ℤ) + 1) := by
  constructor
  · exact_mod_cast Nat.log2_self_le (Nat.ne_of_gt h)
  · exact_mod_cast Nat.lt_log2_self (n := n)

/-- The test of `floorLog2` compares a ratio with a power of two. -/
theorem two_zpow_le_div_iff (num : Nat) {den : Nat} (hden : 0 < den) (a : ℤ) :
    (if 0 ≤ a then decide (den * Nat.pow 2 a.toNat ≤ num)
      else decide (den ≤ num * Nat.pow 2 (-a).toNat)) = true ↔ (2 : ℚ) ^ a ≤ num / den := by
  have hpos : (0 : ℚ) < den := by exact_mod_cast hden
  rw [le_div_iff₀ hpos]
  split
  · rename_i h
    rw [zpow_of_nonneg 2 h, decide_eq_true_iff, mul_comm]
    exact_mod_cast Iff.rfl
  · rename_i h
    have hpow : (0 : ℚ) < 2 ^ (-a).toNat := by positivity
    rw [zpow_of_neg 2 (Int.not_le.1 h), decide_eq_true_iff, inv_mul_le_iff₀ hpow, mul_comm]
    exact_mod_cast Iff.rfl

/-- The binary logarithm is that of a number between two powers of two. -/
theorem floorLog2_bounds {num den : Nat} (hnum : 0 < num) (hden : 0 < den) :
    (2 : ℚ) ^ floorLog2 num den ≤ num / den ∧ (num / den : ℚ) < 2 ^ (floorLog2 num den + 1) := by
  have hpos : (0 : ℚ) < den := by exact_mod_cast hden
  obtain ⟨hnumLow, hnumHigh⟩ := log2_bounds hnum
  obtain ⟨hdenLow, hdenHigh⟩ := log2_bounds hden
  generalize ha : (num.log2 : ℤ) - den.log2 = a
  have hupper : (num / den : ℚ) < 2 ^ (a + 1) := by
    rw [div_lt_iff₀ hpos]
    calc (num : ℚ) < 2 ^ ((num.log2 : ℤ) + 1) := hnumHigh
      _ = 2 ^ (a + 1) * 2 ^ (den.log2 : ℤ) := by
        rw [← zpow_add₀ two_ne_zero, ← ha]
        congr 1
        omega
      _ ≤ 2 ^ (a + 1) * den := mul_le_mul_of_nonneg_left hdenLow (by positivity)
  have hlower : (2 : ℚ) ^ (a - 1) ≤ num / den := by
    rw [le_div_iff₀ hpos]
    calc (2 : ℚ) ^ (a - 1) * den ≤ 2 ^ (a - 1) * 2 ^ ((den.log2 : ℤ) + 1) :=
        mul_le_mul_of_nonneg_left hdenHigh.le (by positivity)
      _ = 2 ^ (num.log2 : ℤ) := by
        rw [← zpow_add₀ two_ne_zero, ← ha]
        congr 1
        omega
      _ ≤ num := hnumLow
  have hreached := two_zpow_le_div_iff num hden a
  simp only [floorLog2, ha, hreached]
  split
  · rename_i h
    exact ⟨h, hupper⟩
  · rename_i h
    rw [sub_add_cancel]
    exact ⟨hlower, not_le.1 h⟩

/-- The exponent of a double is the scale of a number in its binade. -/
theorem scale_eq {x : ℚ} {e q : ℤ} (hle : (2 : ℚ) ^ e ≤ x) (hlt : x < 2 ^ (e + 1))
    (hmin : -1074 ≤ q) (hx : x < 2 ^ (q + 53)) (hnormal : q = -1074 ∨ (2 : ℚ) ^ (q + 52) ≤ x) :
    max (e - 52) (-1074) = q := by
  have hupper : e < q + 53 := (zpow_lt_zpow_iff_right₀ one_lt_two).1 (hle.trans_lt hx)
  rcases hnormal with rfl | hnormal
  · omega
  · have hlower : q + 52 < e + 1 := (zpow_lt_zpow_iff_right₀ one_lt_two).1 (hnormal.trans_lt hlt)
    omega

/-- On a scale the quotient is rounded to the natural that it is near. -/
theorem roundHalfEven_scaled {num den k : Nat} (hden : 0 < den) (q : ℤ)
    (h : Spans k ((k - 1 / 2) * 2 ^ q) ((k + 1 / 2) * 2 ^ q) (num / den)) :
    (if 0 ≤ q then roundHalfEven num (den * Nat.pow 2 q.toNat)
      else roundHalfEven (num * Nat.pow 2 (-q).toNat) den) = k := by
  have hpow : (0 : ℚ) < 2 ^ q := by positivity
  have hscaled := (spans_mul_right_iff (inv_pos.2 hpow)).2 h
  rw [mul_inv_cancel_right₀ hpow.ne', mul_inv_cancel_right₀ hpow.ne'] at hscaled
  split
  · rename_i hq
    refine roundHalfEven_eq (Nat.mul_pos hden (Nat.pow_pos (by decide))) ?_
    rw [zpow_of_nonneg 2 hq] at hscaled
    simpa [div_mul_eq_div_div, ← div_eq_mul_inv] using hscaled
  · rename_i hq
    refine roundHalfEven_eq hden ?_
    rw [zpow_of_neg 2 (Int.not_le.1 hq), inv_inv] at hscaled
    simpa [mul_div_right_comm] using hscaled

/-! ## Doubles and the numbers nearest to them -/

/-- The pairs that stand for positive doubles. -/
structure Canonical (m : Nat) (q : ℤ) : Prop where
  pos : 0 < m
  lt : m < 2 ^ 53
  le_exponent : -1074 ≤ q
  exponent_le : q ≤ 971
  normal : 2 ^ 52 ≤ m ∨ q = -1074

/-- The bit pattern of a positive double. -/
def pattern (m : Nat) (q : ℤ) : Nat := (q + 1074).toNat * 2 ^ 52 + m

/-- How far below a double the numbers nearest to it begin, in steps of its exponent. -/
def gap (m : Nat) (q : ℤ) : ℚ := if m = 2 ^ 52 ∧ -1074 < q then 1 / 4 else 1 / 2

theorem gap_bounds (m : Nat) (q : ℤ) : 1 / 4 ≤ gap m q ∧ gap m q ≤ 1 / 2 := by
  unfold gap
  split <;> norm_num

/-- The numbers nearest to a double. -/
def Rounds (m : Nat) (q : ℤ) (x : ℚ) : Prop :=
  Spans m ((m - gap m q) * 2 ^ q) ((m + 1 / 2) * 2 ^ q) x

theorem Rounds.pos {m : Nat} {q : ℤ} {x : ℚ} (h : Rounds m q x) (hm : 0 < m) : 0 < x := by
  have hone : (1 : ℚ) ≤ m := by exact_mod_cast hm
  have hgap := (gap_bounds m q).2
  have hlow : 0 < (m - gap m q) * 2 ^ q := mul_pos (by linarith) (by positivity)
  exact hlow.trans_le h.low_le

/-- A decimal near a double has a digit. -/
theorem Rounds.digits_pos {m c : Nat} {q e : ℤ} (h : Rounds m q (c * 10 ^ e)) (hm : 0 < m) :
    0 < c := by
  rcases Nat.eq_zero_or_pos c with rfl | hpos
  · exact absurd (h.pos hm) (by simp)
  · exact hpos

theorem nearestBits_eq {num den k : Nat} {q : ℤ} (hnum : 0 < num) (hden : 0 < den)
    (hscale : max (floorLog2 num den - 52) (-1074) = q)
    (h : Spans k ((k - 1 / 2) * 2 ^ q) ((k + 1 / 2) * 2 ^ q) (num / den))
    (hfinite : pattern k q ≤ infinityBits) : nearestBits num den = pattern k q := by
  have hpos : ¬(num = 0 ∨ den = 0) := by omega
  simp only [nearestBits, if_neg hpos, hscale, roundHalfEven_scaled hden q h]
  exact Nat.min_eq_left hfinite

/-- Most numbers in the interval of a double are on its scale. -/
theorem Rounds.on_scale {m : Nat} {q : ℤ} {x : ℚ} (hc : Canonical m q) (h : Rounds m q x)
    (hx : m ≠ 2 ^ 52 ∨ q = -1074 ∨ (2 : ℚ) ^ (q + 52) ≤ x) :
    x < 2 ^ (q + 53) ∧ (q = -1074 ∨ (2 : ℚ) ^ (q + 52) ≤ x) ∧
      Spans m ((m - 1 / 2) * 2 ^ q) ((m + 1 / 2) * 2 ^ q) x := by
  have hpow : (0 : ℚ) < 2 ^ q := by positivity
  have hlow : ((m : ℚ) - 1 / 2) * 2 ^ q ≤ (m - gap m q) * 2 ^ q :=
    mul_le_mul_of_nonneg_right (by linarith [(gap_bounds m q).2]) hpow.le
  refine ⟨?_, ?_, hlow.trans h.low_le, h.le_high, fun hodd => ?_⟩
  · have hm : (m : ℚ) + 1 ≤ 2 ^ 53 := by exact_mod_cast hc.lt
    calc x ≤ (m + 1 / 2) * 2 ^ q := h.le_high
      _ < 2 ^ 53 * 2 ^ q := mul_lt_mul_of_pos_right (by linarith) hpow
      _ = 2 ^ (q + 53) := (two_zpow_add q 53).symm
  · rcases hc.normal with hnormal | hq
    · rcases hx with hne | hx
      · refine .inr ?_
        have hm : (2 : ℚ) ^ 52 + 1 ≤ m := by exact_mod_cast Nat.lt_of_le_of_ne hnormal hne.symm
        calc (2 : ℚ) ^ (q + 52) = 2 ^ 52 * 2 ^ q := two_zpow_add q 52
          _ ≤ (m - 1 / 2) * 2 ^ q := mul_le_mul_of_nonneg_right (by linarith) hpow.le
          _ ≤ x := hlow.trans h.low_le
      · exact hx
    · exact .inl hq
  · exact (h.strict hodd).imp_left hlow.trans_lt

/-- A ratio in the interval of a double has the bits of the double. -/
theorem nearestBits_of_rounds {m num den : Nat} {q : ℤ} (hc : Canonical m q) (hden : 0 < den)
    (h : Rounds m q (num / den)) : nearestBits num den = pattern m q := by
  have hnum : 0 < num := by
    rcases Nat.eq_zero_or_pos num with rfl | hnum
    · exact absurd (h.pos hc.pos) (by simp)
    · exact hnum
  obtain ⟨hle, hlt⟩ := floorLog2_bounds hnum hden
  have hm := hc.lt
  have hmin := hc.le_exponent
  have hmax := hc.exponent_le
  by_cases hx : m ≠ 2 ^ 52 ∨ q = -1074 ∨ (2 : ℚ) ^ (q + 52) ≤ num / den
  · obtain ⟨hupper, hnormal, hspans⟩ := h.on_scale hc hx
    refine nearestBits_eq hnum hden (scale_eq hle hlt hmin hupper hnormal) hspans ?_
    rw [pattern, infinityBits, Nat.pow_eq]
    omega
  -- Below a power of two the scale is one finer, and the quotient carries into the exponent.
  · push Not at hx
    obtain ⟨rfl, hq, hbelow⟩ := hx
    obtain ⟨p, rfl⟩ : ∃ p, q = p + 1 := ⟨q - 1, by omega⟩
    have hgap : gap (2 ^ 52) (p + 1) = 1 / 4 := if_pos ⟨rfl, by omega⟩
    have hlow := h.low_le
    rw [hgap, zpow_add_one₀ two_ne_zero] at hlow
    rw [show p + 1 + 52 = p + 53 by omega] at hbelow
    have htop : (2 : ℚ) ^ (p + 53) = 2 ^ 53 * 2 ^ p := two_zpow_add p 53
    have hbottom : (2 : ℚ) ^ (p + 52) = 2 ^ 52 * 2 ^ p := two_zpow_add p 52
    have hfine : (0 : ℚ) < 2 ^ p := by positivity
    have hspans : Spans (2 ^ 53) (((2 ^ 53 : Nat) - 1 / 2) * 2 ^ p)
        (((2 ^ 53 : Nat) + 1 / 2) * 2 ^ p) (num / den) := by
      push_cast at hlow ⊢
      exact ⟨by linarith, by linarith, fun hodd => absurd hodd (by decide)⟩
    have hscale : max (floorLog2 num den - 52) (-1074) = p := by
      refine scale_eq hle hlt (by omega) hbelow (.inr ?_)
      push_cast at hlow
      linarith
    have hcarry : pattern (2 ^ 53) p = pattern (2 ^ 52) (p + 1) := by
      rw [pattern, pattern]
      omega
    rw [← hcarry]
    refine nearestBits_eq hnum hden hscale hspans ?_
    rw [hcarry, pattern, infinityBits, Nat.pow_eq]
    omega

/-! ## Decimals -/

theorem digitCount_bounds {n : Nat} (h : 0 < n) :
    (10 : ℚ) ^ ((digitCount n : ℤ) - 1) ≤ n ∧ (n : ℚ) < 10 ^ (digitCount n : ℤ) := by
  have hupper := (Nat.length_toDigits_le_iff (by decide) Nat.length_toDigits_pos).1
    (Nat.le_refl (Nat.toDigits 10 n).length)
  refine ⟨?_, by exact_mod_cast hupper⟩
  obtain ⟨k, hk⟩ : ∃ k, digitCount n = k + 1 :=
    ⟨_, (Nat.succ_pred_eq_of_pos Nat.length_toDigits_pos).symm⟩
  have hlower : 10 ^ k ≤ n := by
    rcases Nat.eq_zero_or_pos k with rfl | hpos
    · exact h
    · by_contra hlt
      have hle := (Nat.length_toDigits_le_iff (by decide) hpos).2 (Nat.lt_of_not_le hlt)
      rw [digitCount] at hk
      omega
  rw [hk]
  push_cast
  rw [add_sub_cancel_right]
  exact_mod_cast hlower

/-- The first digit of a number between two powers of ten is between them. -/
theorem exponent_bounds {c : Nat} {e low high : ℤ} (hpos : 0 < c)
    (hlow : (10 : ℚ) ^ low ≤ c * 10 ^ e) (hhigh : (c * 10 ^ e : ℚ) < 10 ^ high) :
    low ≤ e + digitCount c - 1 ∧ e + digitCount c - 1 < high := by
  obtain ⟨hfirst, hlast⟩ := digitCount_bounds hpos
  have hten : (0 : ℚ) < 10 ^ e := by positivity
  constructor
  · refine Int.le_sub_one_of_lt ?_
    refine (zpow_lt_zpow_iff_right₀ (by norm_num : (1 : ℚ) < 10)).1 (hlow.trans_lt ?_)
    rw [zpow_add₀ (by norm_num), mul_comm]
    exact mul_lt_mul_of_pos_left hlast hten
  · refine (zpow_lt_zpow_iff_right₀ (by norm_num : (1 : ℚ) < 10)).1 (lt_of_le_of_lt ?_ hhigh)
    rw [add_sub_assoc, zpow_add₀ (by norm_num), mul_comm]
    exact mul_le_mul_of_nonneg_right hfirst hten.le

theorem ten_zpow_le : (10 : ℚ) ^ (-400 : ℤ) ≤ 2 ^ (-1075 : ℤ) := by
  have hpow : (2 : ℚ) ^ 1075 ≤ 10 ^ 400 := by
    exact_mod_cast (by decide +kernel : 2 ^ 1075 ≤ 10 ^ 400)
  rw [zpow_neg, zpow_neg]
  exact inv_anti₀ (by positivity) (by exact_mod_cast hpow)

theorem lt_ten_zpow : (2 : ℚ) ^ (1024 : ℤ) < 10 ^ (400 : ℤ) := by
  have hpow : (2 : ℚ) ^ 1024 < 10 ^ 400 := by
    exact_mod_cast (by decide +kernel : 2 ^ 1024 < 10 ^ 400)
  exact_mod_cast hpow

/-- The numbers nearest to doubles are neither very small nor very large. -/
theorem Rounds.bounds {m : Nat} {q : ℤ} {x : ℚ} (hc : Canonical m q) (h : Rounds m q x) :
    10 ^ (-400 : ℤ) ≤ x ∧ x < 10 ^ (400 : ℤ) := by
  have hpos : (1 : ℚ) ≤ m := by exact_mod_cast hc.pos
  have hm : (m : ℚ) + 1 ≤ 2 ^ 53 := by exact_mod_cast hc.lt
  have hgap := (gap_bounds m q).2
  constructor
  · calc (10 : ℚ) ^ (-400 : ℤ) ≤ 2 ^ (-1075 : ℤ) := ten_zpow_le
      _ = 1 / 2 * 2 ^ (-1074 : ℤ) := by
        rw [show (-1075 : ℤ) = -1074 - 1 by decide, zpow_sub_one₀ two_ne_zero]
        ring
      _ ≤ 1 / 2 * 2 ^ q := by
        gcongr
        · exact one_le_two
        · exact hc.le_exponent
      _ ≤ (m - gap m q) * 2 ^ q := mul_le_mul_of_nonneg_right (by linarith) (by positivity)
      _ ≤ x := h.low_le
  · calc x ≤ (m + 1 / 2) * 2 ^ q := h.le_high
      _ ≤ 2 ^ 53 * 2 ^ q := mul_le_mul_of_nonneg_right (by linarith) (by positivity)
      _ ≤ 2 ^ 53 * 2 ^ (971 : ℤ) := by
        gcongr
        · exact one_le_two
        · exact hc.exponent_le
      _ = 2 ^ (1024 : ℤ) := (two_zpow_add 971 53).symm
      _ < 10 ^ (400 : ℤ) := lt_ten_zpow

/-- A decimal in the interval of a double has the bits of the double. -/
theorem bitsOfDecimal_of_rounds {m c : Nat} {q e : ℤ} (hc : Canonical m q)
    (h : Rounds m q (c * 10 ^ e)) : bitsOfDecimal ⟨false, c, e⟩ = pattern m q := by
  obtain ⟨hsmall, hlarge⟩ := h.bounds hc
  have hpos := h.digits_pos hc.pos
  obtain ⟨hleast, hgreatest⟩ := exponent_bounds hpos hsmall hlarge
  have hmin : ¬(c = 0 ∨ e + digitCount c < -400) := by omega
  have hmax : ¬400 < e + (digitCount c : ℤ) := by omega
  simp only [bitsOfDecimal, signBits, if_neg hmin, if_neg hmax, Bool.false_eq_true, if_false,
    Nat.zero_add]
  split
  · rename_i he
    refine nearestBits_of_rounds hc Nat.one_pos ?_
    rw [zpow_of_nonneg 10 he] at h
    simpa using h
  · rename_i he
    refine nearestBits_of_rounds hc (Nat.pow_pos (by decide)) ?_
    rw [zpow_of_neg 10 (Int.not_le.1 he)] at h
    simpa [div_eq_mul_inv] using h

end Binary64

end FormulaGraph
