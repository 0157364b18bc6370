import FormulaGraph.Number.Shortest
import FormulaGraph.Proofs.Number.Rounding
/-!
# Shortest decimals

The digits that are found for a double are those of a number in its interval, so they are read back
as the double. A grid of decimals that is finer than the interval has one of the two neighbours of
the double inside, because the interval reaches to both sides of it. That is so at the seventeenth
digit at last, so the search always finds digits.

* `floorLog10_le`: the decimal logarithm is no larger than it should be.
* `rounds_of_onGrid?`, `exists_onGrid?`: what a grid yields is inside, and a fine grid yields
  something.
* `Shortest.rounds_ofBinary`: the shortest decimal of a double is in its interval.
-/
namespace FormulaGraph.Shortest

open Binary64

/-! ## Powers of ten -/

theorem scaleBy_pos (n : Nat) {d : Nat} (hd : 0 < d) (e : ℤ) : 0 < (scaleBy n d e).2 := by
  unfold scaleBy
  split
  · exact hd
  · exact Nat.mul_pos hd (Nat.pow_pos (by decide))

theorem scaleBy_eq (n d : Nat) (e : ℤ) :
    ((scaleBy n d e).1 / (scaleBy n d e).2 : ℚ) = n / d * 10 ^ e := by
  unfold scaleBy
  split
  · rename_i h
    simp [zpow_of_nonneg 10 h, mul_div_right_comm]
  · rename_i h
    simp [zpow_of_neg 10 (Int.not_le.1 h), div_mul_eq_div_div, ← div_eq_mul_inv]

/-- The test of `floorLog10` compares a ratio with a power of ten. -/
theorem scaleBy_le_iff {num den : Nat} (hden : 0 < den) (p : ℤ) :
    (scaleBy num den (-p)).2 ≤ (scaleBy num den (-p)).1 ↔ (10 : ℚ) ^ p ≤ num / den := by
  have hpos : (0 : ℚ) < (scaleBy num den (-p)).2 := by exact_mod_cast scaleBy_pos num hden _
  have hpow : (0 : ℚ) < 10 ^ p := by positivity
  rw [← Nat.cast_le (α := ℚ), ← one_le_div₀ hpos, scaleBy_eq, zpow_neg, ← div_eq_mul_inv,
    one_le_div₀ hpow]

/-- The first guess at a decimal logarithm is too high by one at most. -/
theorem ten_zpow_guess_le {e : ℤ} (hmin : -1075 ≤ e) (hmax : e ≤ 1024) :
    (10 : ℚ) ^ (e * 30103 / 100000 - 1) ≤ 2 ^ e := by
  rcases Int.lt_or_le e 0 with hneg | hpos
  -- For numbers below one the powers are turned over, and `2 ^ 93` is less than `10 ^ 28`.
  · obtain ⟨n, hn⟩ : ∃ n : ℕ, e * 30103 / 100000 - 1 = -n :=
      ⟨(1 - e * 30103 / 100000).toNat, by omega⟩
    obtain ⟨k, rfl⟩ : ∃ k : ℕ, e = -k := ⟨(-e).toNat, by omega⟩
    have hpow : (2 : ℚ) ^ k ≤ 10 ^ n := by
      refine le_of_pow_le_pow_left₀ (by decide : 28 ≠ 0) (by positivity) ?_
      calc ((2 : ℚ) ^ k) ^ 28 = 2 ^ (k * 28) := (pow_mul _ _ _).symm
        _ ≤ 2 ^ (93 * n) := pow_le_pow_right₀ one_le_two (by omega)
        _ = (2 ^ 93) ^ n := pow_mul _ _ _
        _ ≤ (10 ^ 28) ^ n := pow_le_pow_left₀ (by positivity) (by norm_num) n
        _ = (10 ^ n) ^ 28 := pow_right_comm _ _ _
    rw [hn, zpow_neg, zpow_neg, zpow_natCast, zpow_natCast]
    exact inv_anti₀ (by positivity) hpow
  · obtain ⟨n, hn, hle⟩ : ∃ n : ℕ, e * 30103 / 100000 - 1 ≤ n ∧ n * 196 ≤ 59 * e :=
      ⟨(e * 30103 / 100000 - 1).toNat, by omega, by omega⟩
    obtain ⟨k, rfl⟩ : ∃ k : ℕ, e = k := ⟨e.toNat, by omega⟩
    have hpow : (10 : ℚ) ^ n ≤ 2 ^ k := by
      refine le_of_pow_le_pow_left₀ (by decide : 59 ≠ 0) (by positivity) ?_
      calc ((10 : ℚ) ^ n) ^ 59 = (10 ^ 59) ^ n := pow_right_comm _ _ _
        _ ≤ (2 ^ 196) ^ n := pow_le_pow_left₀ (by positivity) (by norm_num) n
        _ = 2 ^ (n * 196) := by rw [← pow_mul, mul_comm]
        _ ≤ 2 ^ (k * 59) := pow_le_pow_right₀ one_le_two (by omega)
        _ = (2 ^ k) ^ 59 := pow_mul _ _ _
    calc (10 : ℚ) ^ (((k : ℤ) * 30103 / 100000 - 1)) ≤ 10 ^ (n : ℤ) :=
        zpow_le_zpow_right₀ (by norm_num) hn
      _ ≤ 2 ^ (k : ℤ) := by exact_mod_cast hpow

/-- The decimal logarithm is no larger than it should be. -/
theorem floorLog10_le {num den : Nat} (hnum : 0 < num) (hden : 0 < den)
    (hmin : (2 : ℚ) ^ (-1074 : ℤ) ≤ num / den) (hmax : (num / den : ℚ) < 2 ^ (1024 : ℤ)) :
    (10 : ℚ) ^ floorLog10 num den ≤ num / den := by
  obtain ⟨hle, hlt⟩ := floorLog2_bounds hnum hden
  have hlog : -1074 < floorLog2 num den + 1 :=
    (zpow_lt_zpow_iff_right₀ one_lt_two).1 (hmin.trans_lt hlt)
  have hlog' : floorLog2 num den < 1024 :=
    (zpow_lt_zpow_iff_right₀ one_lt_two).1 (hle.trans_lt hmax)
  simp only [floorLog10, decide_eq_true_iff, scaleBy_le_iff hden]
  split
  · assumption
  · split
    · assumption
    · exact (ten_zpow_guess_le (by omega) (by omega)).trans hle

/-! ## Neighbours on a grid -/

/-- The unit of `onGrid?`: a quarter of a step of the double, in steps of the grid. -/
def unit (q p : ℤ) : Nat × Nat := scaleBy (ratio 1 (q - 2)).1 (ratio 1 (q - 2)).2 (-p)

/-- The test of `onGrid?`. -/
def inside (m : Nat) (q p : ℤ) (k : Nat) : Bool :=
  let high := (4 * m + 2) * (unit q p).1
  let low := (4 * m - (if m = Nat.pow 2 52 ∧ -1074 < q then 1 else 2)) * (unit q p).1
  let x := k * (unit q p).2
  if m % 2 = 0 then low ≤ x && x ≤ high else low < x && x < high

/-- The neighbour below. -/
def below (m : Nat) (q p : ℤ) : Nat := 4 * m * (unit q p).1 / (unit q p).2

theorem unit_pos (q p : ℤ) : 0 < (unit q p).2 := scaleBy_pos _ (ratio_pos _ _) _

theorem unit_eq (q p : ℤ) : ((unit q p).1 / (unit q p).2 : ℚ) = 2 ^ q / 4 * (10 ^ p)⁻¹ := by
  rw [unit, scaleBy_eq, ratio_eq, zpow_neg, zpow_sub₀ two_ne_zero]
  norm_num

/-- The neighbour that `onGrid?` takes, by which of the two are inside. -/
def nearer (m : Nat) (q p : ℤ) : Bool → Bool → Option Nat
  | true, true =>
    let down := 4 * m * (unit q p).1 - below m q p * (unit q p).2
    let up := (below m q p + 1) * (unit q p).2 - 4 * m * (unit q p).1
    if down < up then some (below m q p)
    else if up < down then some (below m q p + 1)
    else if below m q p % 2 = 0 then some (below m q p) else some (below m q p + 1)
  | true, false => some (below m q p)
  | false, true => some (below m q p + 1)
  | false, false => none

theorem onGrid?_eq (m : Nat) (q p : ℤ) : onGrid? m q p =
    nearer m q p (inside m q p (below m q p)) (inside m q p (below m q p + 1)) :=
  rfl

/-- A yield is a neighbour inside, and without one no neighbour is. -/
theorem onGrid?_cases (m : Nat) (q p : ℤ) :
    (∀ k, onGrid? m q p = some k → inside m q p k = true) ∧
      (onGrid? m q p = none →
        inside m q p (below m q p) = false ∧ inside m q p (below m q p + 1) = false) := by
  rw [onGrid?_eq]
  cases hbelow : inside m q p (below m q p) with
  | true =>
    cases habove : inside m q p (below m q p + 1) with
    | true =>
      rw [nearer]
      refine ⟨fun k hk => ?_, fun hnone => ?_⟩
      · have hneighbour : k = below m q p ∨ k = below m q p + 1 := by
          split_ifs at hk <;> simp_all
        rcases hneighbour with rfl | rfl
        · exact hbelow
        · exact habove
      · split_ifs at hnone
    | false => exact ⟨fun k hk => Option.some.inj hk ▸ hbelow, nofun⟩
  | false =>
    cases habove : inside m q p (below m q p + 1) with
    | true => exact ⟨fun k hk => Option.some.inj hk ▸ habove, nofun⟩
    | false => exact ⟨nofun, fun _ => ⟨rfl, rfl⟩⟩

theorem spans_natCast_iff (m low high x : Nat) :
    (if m % 2 = 0 then decide (low ≤ x) && decide (x ≤ high)
      else decide (low < x) && decide (x < high)) = true ↔ Spans m (low : ℚ) high x := by
  split
  · rename_i heven
    rw [Bool.and_eq_true, decide_eq_true_iff, decide_eq_true_iff]
    constructor
    · rintro ⟨hlow, hhigh⟩
      exact ⟨by exact_mod_cast hlow, by exact_mod_cast hhigh, fun hodd => by omega⟩
    · rintro ⟨hlow, hhigh, -⟩
      exact ⟨by exact_mod_cast hlow, by exact_mod_cast hhigh⟩
  · rename_i hodd
    rw [Bool.and_eq_true, decide_eq_true_iff, decide_eq_true_iff]
    constructor
    · rintro ⟨hlow, hhigh⟩
      have hlow : (low : ℚ) < x := by exact_mod_cast hlow
      have hhigh : (x : ℚ) < high := by exact_mod_cast hhigh
      exact ⟨hlow.le, hhigh.le, fun _ => ⟨hlow, hhigh⟩⟩
    · rintro ⟨-, -, hstrict⟩
      obtain ⟨hlow, hhigh⟩ := hstrict (by omega)
      exact ⟨by exact_mod_cast hlow, by exact_mod_cast hhigh⟩

/-- The test is whether the number is one of those nearest to the double. -/
theorem inside_iff {m : Nat} (hm : 0 < m) (q p : ℤ) (k : Nat) :
    inside m q p k = true ↔ Rounds m q (k * 10 ^ p) := by
  have hden : (0 : ℚ) < (unit q p).2 := by exact_mod_cast unit_pos q p
  have hgrid : (0 : ℚ) < 10 ^ p := by positivity
  have hunit : ((unit q p).1 : ℚ) = 2 ^ q / 4 * ((10 ^ p)⁻¹ * (unit q p).2) := by
    rw [← mul_assoc, ← unit_eq, div_mul_cancel₀ _ hden.ne']
  have hpoint : (k : ℚ) * (unit q p).2 = k * 10 ^ p * ((10 ^ p)⁻¹ * (unit q p).2) := by
    field_simp
  have hhigh : (((4 * m + 2) * (unit q p).1 : Nat) : ℚ) =
      (m + 1 / 2) * 2 ^ q * ((10 ^ p)⁻¹ * (unit q p).2) := by
    push_cast
    rw [hunit]
    ring
  have hlow : (((4 * m - (if m = Nat.pow 2 52 ∧ -1074 < q then 1 else 2)) * (unit q p).1 : Nat) :
      ℚ) = (m - gap m q) * 2 ^ q * ((10 ^ p)⁻¹ * (unit q p).2) := by
    rw [gap, Nat.pow_eq]
    split
    · rw [Nat.cast_mul, Nat.cast_sub (by omega), hunit]
      push_cast
      ring
    · rw [Nat.cast_mul, Nat.cast_sub (by omega), hunit]
      push_cast
      ring
  rw [Rounds, ← spans_mul_right_iff (mul_pos (inv_pos.2 hgrid) hden), ← hhigh, ← hlow, ← hpoint,
    ← Nat.cast_mul]
  exact spans_natCast_iff _ _ _ _

theorem rounds_of_onGrid? {m k : Nat} {q p : ℤ} (hm : 0 < m) (h : onGrid? m q p = some k) :
    Rounds m q (k * 10 ^ p) :=
  (inside_iff hm q p k).1 ((onGrid?_cases m q p).1 k h)

/-- The double is between its two neighbours. -/
theorem below_bounds (m : Nat) (q p : ℤ) :
    (below m q p * 10 ^ p : ℚ) ≤ m * 2 ^ q ∧ (m * 2 ^ q : ℚ) < (below m q p + 1) * 10 ^ p := by
  have hden : (0 : ℚ) < (unit q p).2 := by exact_mod_cast unit_pos q p
  have hgrid : (0 : ℚ) < 10 ^ p := by positivity
  have hvalue : ((4 * m * (unit q p).1 : Nat) / (unit q p).2 : ℚ) = m * 2 ^ q / 10 ^ p := by
    push_cast
    rw [mul_div_assoc, unit_eq]
    ring
  constructor
  · rw [← le_div_iff₀ hgrid, ← hvalue, le_div_iff₀ hden]
    exact_mod_cast Nat.div_mul_le_self _ _
  · have hlt := Nat.lt_mul_div_succ (4 * m * (unit q p).1) (unit_pos q p)
    rw [mul_comm (unit q p).2] at hlt
    rw [← div_lt_iff₀ hgrid, ← hvalue, div_lt_iff₀ hden]
    exact_mod_cast hlt

/-- A grid that is finer than the interval has a point inside. -/
theorem exists_onGrid? {m : Nat} {q p : ℤ} (hm : 0 < m)
    (hfine : (10 : ℚ) ^ p < (1 / 2 + gap m q) * 2 ^ q) : ∃ k, onGrid? m q p = some k := by
  have hpow : (0 : ℚ) < 2 ^ q := by positivity
  have hgap := (gap_bounds m q).1
  have hlow : (m - gap m q) * 2 ^ q < m * 2 ^ q := mul_lt_mul_of_pos_right (by linarith) hpow
  have hhigh : (m : ℚ) * 2 ^ q < (m + 1 / 2) * 2 ^ q :=
    mul_lt_mul_of_pos_right (by linarith) hpow
  obtain ⟨hbelow, habove⟩ := below_bounds m q p
  cases hgrid : onGrid? m q p with
  | some k => exact ⟨k, rfl⟩
  | none =>
    obtain ⟨hfirst, hsecond⟩ := (onGrid?_cases m q p).2 hgrid
    have hunder : (below m q p * 10 ^ p : ℚ) ≤ (m - gap m q) * 2 ^ q := by
      refine not_lt.1 fun hlt => Bool.eq_false_iff.1 hfirst ((inside_iff hm q p _).2 ?_)
      exact ⟨hlt.le, (hbelow.trans_lt hhigh).le, fun _ => ⟨hlt, hbelow.trans_lt hhigh⟩⟩
    have hover : ((m : ℚ) + 1 / 2) * 2 ^ q ≤ (below m q p + 1) * 10 ^ p := by
      refine not_lt.1 fun hlt => Bool.eq_false_iff.1 hsecond ((inside_iff hm q p _).2 ?_)
      push_cast
      exact ⟨(hlow.trans habove).le, hlt.le, fun _ => ⟨hlow.trans habove, hlt⟩⟩
    linarith

/-! ## The search -/

def value (s : Shortest) : ℚ := s.digits * 10 ^ s.exponent

theorem value_trim (fuel : Nat) (s : Shortest) : (trim fuel s).value = s.value := by
  induction fuel generalizing s with
  | zero => rfl
  | succ fuel ih =>
    rw [trim]
    split
    · rename_i h
      have hten : (s.digits : ℚ) = (s.digits / 10 : Nat) * 10 := by
        exact_mod_cast (Nat.div_mul_cancel (Nat.dvd_of_mod_eq_zero h.1)).symm
      rw [ih, value, value, hten, zpow_add_one₀ (by norm_num)]
      ring
    · rfl

/-- The seventeenth digit is on a grid that is fine enough. -/
theorem ten_zpow_lt {m : Nat} {q top : ℤ} (hc : Canonical m q)
    (htop : (10 : ℚ) ^ top ≤ m * 2 ^ q) :
    (10 : ℚ) ^ (top - 16) < (1 / 2 + gap m q) * 2 ^ q := by
  have hpow : (0 : ℚ) < 2 ^ q := by positivity
  have hm : (m : ℚ) / 10 ^ 16 < 1 / 2 + gap m q := by
    rw [div_lt_iff₀ (by norm_num)]
    unfold gap
    split
    · rename_i h
      rw [h.1]
      norm_num
    · have hlt : (m : ℚ) < 2 ^ 53 := by exact_mod_cast hc.lt
      exact hlt.trans (by norm_num)
  calc (10 : ℚ) ^ (top - 16) = 10 ^ top / 10 ^ 16 := by
        rw [zpow_sub₀ (by norm_num)]
        rfl
    _ ≤ m * 2 ^ q / 10 ^ 16 := div_le_div_of_nonneg_right htop (by norm_num)
    _ = m / 10 ^ 16 * 2 ^ q := by ring
    _ < (1 / 2 + gap m q) * 2 ^ q := mul_lt_mul_of_pos_right hm hpow

/-- The decimal that the search stops at, if it does. -/
def candidate (m : Nat) (q top : ℤ) (n : Nat) : Option Shortest :=
  match onGrid? m q (top - n) with
  | some d => if d = 0 then none else some ⟨d, top - n⟩
  | none => none

theorem rounds_of_candidate {m : Nat} {q top : ℤ} {n : Nat} {s : Shortest} (hm : 0 < m)
    (h : candidate m q top n = some s) : Rounds m q s.value := by
  unfold candidate at h
  split at h
  · rename_i d hd
    split at h
    · cases h
    · cases h
      exact rounds_of_onGrid? hm hd
  · cases h

theorem exists_candidate {m : Nat} {q top : ℤ} (hc : Canonical m q)
    (htop : (10 : ℚ) ^ top ≤ m * 2 ^ q) : ∃ s, candidate m q top 16 = some s := by
  obtain ⟨d, hd⟩ := exists_onGrid? hc.pos (ten_zpow_lt hc htop)
  have hne : d ≠ 0 := Nat.ne_of_gt ((rounds_of_onGrid? hc.pos hd).digits_pos hc.pos)
  exact ⟨⟨d, top - 16⟩, by simp only [candidate, Nat.cast_ofNat, hd, if_neg hne]⟩

theorem floorLog10_ratio_le {m : Nat} {q : ℤ} (hc : Canonical m q) :
    (10 : ℚ) ^ floorLog10 (ratio m q).1 (ratio m q).2 ≤ m * 2 ^ q := by
  have hone : (1 : ℚ) ≤ m := by exact_mod_cast hc.pos
  have hm : (m : ℚ) < 2 ^ 53 := by exact_mod_cast hc.lt
  have hnum : 0 < (ratio m q).1 := by
    unfold ratio
    split
    · exact Nat.mul_pos hc.pos (Nat.pow_pos (by decide))
    · exact hc.pos
  rw [← ratio_eq]
  refine floorLog10_le hnum (ratio_pos m q) ?_ ?_
  · rw [ratio_eq]
    calc (2 : ℚ) ^ (-1074 : ℤ) ≤ 2 ^ q := zpow_le_zpow_right₀ one_le_two hc.le_exponent
      _ ≤ m * 2 ^ q := le_mul_of_one_le_left (by positivity) hone
  · rw [ratio_eq]
    calc (m : ℚ) * 2 ^ q < 2 ^ 53 * 2 ^ q := mul_lt_mul_of_pos_right hm (by positivity)
      _ ≤ 2 ^ 53 * 2 ^ (971 : ℤ) :=
        mul_le_mul_of_nonneg_left (zpow_le_zpow_right₀ one_le_two hc.exponent_le) (by positivity)
      _ = 2 ^ (1024 : ℤ) := (two_zpow_add 971 53).symm

/-- The shortest decimal of a double is one of the numbers nearest to it. -/
theorem rounds_ofBinary {m : Nat} {q : ℤ} (hc : Canonical m q) :
    Rounds m q (ofBinary m q).value := by
  have hsearch : ofBinary m q = trim 18 (((List.range 17).findSome?
      (candidate m q (floorLog10 (ratio m q).1 (ratio m q).2))).getD ⟨m, 0⟩) := rfl
  rw [hsearch, value_trim]
  cases hfound : (List.range 17).findSome?
      (candidate m q (floorLog10 (ratio m q).1 (ratio m q).2)) with
  | some s =>
    obtain ⟨n, -, hn⟩ := List.exists_of_findSome?_eq_some hfound
    exact rounds_of_candidate hc.pos hn
  | none =>
    obtain ⟨s, hs⟩ := exists_candidate hc (floorLog10_ratio_le hc)
    have hlast := List.findSome?_eq_none_iff.1 hfound 16 (by decide)
    rw [hs] at hlast
    cases hlast

end FormulaGraph.Shortest
