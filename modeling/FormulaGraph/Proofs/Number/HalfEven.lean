import FormulaGraph.Number.Binary64
import Mathlib.Algebra.Order.Field.Basic
import Mathlib.Tactic.FieldSimp
import Mathlib.Tactic.Linarith
import Mathlib.Tactic.NormNum
import Mathlib.Tactic.Ring
/-!
# Rounding half to even

The integer nearest to a rational is within half of it, and where two are, the even one counts.
There is exactly one such integer, and `roundHalfEven` finds it for a quotient of naturals.

* `NearestEven`: the integer to which a rational is rounded.
* `NearestEven.unique`: there is only one.
* `nearestEven_roundHalfEven`: the rounded quotient is it.
-/
namespace FormulaGraph

/-- The integer nearest to a rational, the even one of two. -/
structure NearestEven (x : ℚ) (n : ℤ) : Prop where
  near : |x - n| ≤ 1 / 2
  tie : |x - n| = 1 / 2 → Even n

namespace NearestEven

variable {x : ℚ} {n : ℤ}

theorem neg (h : NearestEven x n) : NearestEven (-x) (-n) := by
  have hdist : |-x - ((-n : ℤ) : ℚ)| = |x - n| := by
    rw [← abs_neg]
    congr 1
    push_cast
    ring
  exact ⟨hdist.trans_le h.near, fun htie => (h.tie (hdist.symm.trans htie)).neg⟩

theorem not_lt {k : ℤ} (hn : NearestEven x n) (hk : NearestEven x k) : ¬n < k := by
  intro hlt
  obtain ⟨hn₁, hn₂⟩ := abs_le.1 hn.near
  obtain ⟨hk₁, hk₂⟩ := abs_le.1 hk.near
  -- both are within half of the number, so it is the middle between them
  have hnext : k = n + 1 := by
    have hle : (k : ℚ) ≤ n + 1 := by linarith
    have hle : k ≤ n + 1 := by exact_mod_cast hle
    omega
  subst hnext
  push_cast at hk hk₁ hk₂
  have hmiddle : x = n + 1 / 2 := by linarith
  have heven : Even n := hn.tie (by rw [hmiddle]; norm_num)
  have hodd : Even (n + 1) := hk.tie (by rw [hmiddle]; push_cast; norm_num)
  exact Int.not_even_iff_odd.2 heven.add_one hodd

theorem unique {k : ℤ} (hn : NearestEven x n) (hk : NearestEven x k) : n = k :=
  le_antisymm (Int.not_lt.1 (hk.not_lt hn)) (Int.not_lt.1 (hn.not_lt hk))

end NearestEven

/-- The same among naturals, a quotient multiplied out. -/
theorem nearestEven_div_iff {num den : Nat} (hden : 0 < den) {n : Nat} :
    NearestEven (num / den) n ↔
      2 * num ≤ 2 * (n * den) + den ∧ 2 * (n * den) ≤ 2 * num + den ∧
        (2 * num = 2 * (n * den) + den ∨ 2 * (n * den) = 2 * num + den → n % 2 = 0) := by
  have hpos : (0 : ℚ) < den := by exact_mod_cast hden
  have hle : (num / den - n : ℚ) ≤ 1 / 2 ↔ 2 * num ≤ 2 * (n * den) + den := by
    rw [sub_le_iff_le_add, div_le_iff₀ hpos, ← Nat.cast_le (α := ℚ)]
    push_cast
    constructor <;> intro h <;> linarith
  have hge : -(1 / 2) ≤ (num / den - n : ℚ) ↔ 2 * (n * den) ≤ 2 * num + den := by
    rw [le_sub_iff_add_le, le_div_iff₀ hpos, ← Nat.cast_le (α := ℚ)]
    push_cast
    constructor <;> intro h <;> linarith
  have habove : (num / den - n : ℚ) = 1 / 2 ↔ 2 * num = 2 * (n * den) + den := by
    rw [sub_eq_iff_eq_add, div_eq_iff hpos.ne', ← Nat.cast_inj (R := ℚ)]
    push_cast
    constructor <;> intro h <;> linarith
  have hbelow : (num / den - n : ℚ) = -(1 / 2) ↔ 2 * (n * den) = 2 * num + den := by
    rw [sub_eq_iff_eq_add, div_eq_iff hpos.ne', ← Nat.cast_inj (R := ℚ)]
    push_cast
    constructor <;> intro h <;> linarith
  have hhalf : (0 : ℚ) ≤ 1 / 2 := by norm_num
  have heven : Even (n : ℤ) ↔ n % 2 = 0 := by rw [Int.even_coe_nat, Nat.even_iff]
  constructor
  · rintro ⟨hnear, htie⟩
    rw [Int.cast_natCast] at hnear htie
    obtain ⟨hlow, hhigh⟩ := abs_le.1 hnear
    rw [abs_eq hhalf, habove, hbelow, heven] at htie
    exact ⟨hle.1 hhigh, hge.1 hlow, htie⟩
  · rintro ⟨hhigh, hlow, htie⟩
    refine ⟨?_, ?_⟩
    · rw [Int.cast_natCast]
      exact abs_le.2 ⟨hge.2 hlow, hle.2 hhigh⟩
    · rwa [Int.cast_natCast, abs_eq hhalf, habove, hbelow, heven]

theorem nearestEven_roundHalfEven {num den : Nat} (hden : 0 < den) :
    NearestEven (num / den) (roundHalfEven num den) := by
  have hdiv : num / den * den + num % den = num := Nat.div_add_mod' num den
  have hmod := Nat.mod_lt num hden
  rw [nearestEven_div_iff hden, roundHalfEven]
  generalize num / den = q at *
  generalize num % den = r at *
  -- down below a half, up above it, and at a half to whichever is even
  split_ifs
  · omega
  · rw [Nat.add_mul, Nat.one_mul]
    omega
  · omega
  · rw [Nat.add_mul, Nat.one_mul]
    omega

end FormulaGraph
