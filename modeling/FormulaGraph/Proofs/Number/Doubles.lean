import FormulaGraph.Number.Float
import FormulaGraph.Proofs.Number.Rounding
import Mathlib
/-!
# The bits and the parts of doubles

`Binary64.ofFloat` takes a double apart by its bits, and so does the machine when it compares two of
them. The parts are the same for every double: a zero is the mantissa 0, a finite number has its
sign, mantissa and exponent, and the special numbers are named. The bits of a positive finite double
are those of its parts.

* `ofFloat_eq`: the parts that the library finds are those that the machine finds.
* `of_unpack`: the pair of a positive finite double, in both readings.
* `exists_of_between`: the doubles from `1e-4` to below `1e16` are positive and finite, and their
  pairs are between two pairs.
-/
namespace FormulaGraph.Double

open Binary64
open Float.Model (UnpackedFloat)

theorem toNat_exponent (b : BitVec 64) :
    (@UnpackedFloat.unpackExponent .binary64 b).toNat = b.toNat / 2 ^ 52 % 2048 := by
  rw [UnpackedFloat.unpackExponent_def, BitVec.extractLsb'_toNat, Nat.shiftRight_eq_div_pow]
  rfl

theorem toNat_mantissa (b : BitVec 64) :
    (@UnpackedFloat.unpackMantissa .binary64 b).toNat = b.toNat % 2 ^ 52 := by
  rw [UnpackedFloat.unpackMantissa_def, BitVec.extractLsb'_toNat, Nat.shiftRight_eq_div_pow]
  simp

theorem toNat_sign (b : BitVec 64) :
    (@UnpackedFloat.unpackSign .binary64 b).toNat = b.toNat / 2 ^ 63 % 2 := by
  rw [UnpackedFloat.unpackSign_def, BitVec.extractLsb'_toNat, Nat.shiftRight_eq_div_pow]
  rfl

theorem toNat_normal (mantissa : BitVec 52) :
    (1#1 ++ mantissa).toNat = 2 ^ 52 + mantissa.toNat := by
  rw [BitVec.toNat_append, ← Nat.shiftLeft_add_eq_or_of_lt mantissa.isLt]
  rfl

/-- The parts of a double that the machine finds. -/
def ofUnpacked : UnpackedFloat → Binary64
  | .notANumber => .special .nan
  | .infinity .positive => .special .infinity
  | .infinity .negative => .special .negInfinity
  | .zero s => .finite (s == .negative) 0 (-1074)
  | .finite s m q _ => .finite (s == .negative) m q

/-- The sign is the first bit. -/
theorem sign_eq (x : Float) :
    UnpackedFloat.Sign.ofBitVec (@UnpackedFloat.unpackSign .binary64 x.toBits.toBitVec) =
      if 2 ^ 63 ≤ x.toBits.toNat then .negative else .positive := by
  have hlt : x.toBits.toNat < 2 ^ 64 := x.toBits.toNat_lt
  have hsign : _ = x.toBits.toNat / 2 ^ 63 % 2 := toNat_sign x.toBits.toBitVec
  rw [UnpackedFloat.Sign.ofBitVec]
  split
  · rename_i h
    rw [h] at hsign
    have hzero : 0 = x.toBits.toNat / 2 ^ 63 % 2 := hsign
    rw [if_neg (by omega)]
  · rename_i h
    have hne : x.toBits.toNat / 2 ^ 63 % 2 ≠ 0 := by
      rw [← hsign]
      exact fun heq => h (BitVec.eq_of_toNat_eq heq)
    rw [if_pos (by omega)]

theorem sign_beq (p : Prop) [Decidable p] :
    ((if p then .negative else .positive : UnpackedFloat.Sign) == .negative) = decide p := by
  by_cases h : p
  · rw [if_pos h, decide_eq_true h]
    rfl
  · rw [if_neg h, decide_eq_false h]
    rfl

/-- The library and the machine find the same parts in a double. -/
theorem ofFloat_eq (x : Float) : ofFloat x = ofUnpacked x.toModel.unpack := by
  have hexponent : _ = x.toBits.toNat / 2 ^ 52 % 2048 := toNat_exponent x.toBits.toBitVec
  have hmantissa : _ = x.toBits.toNat % 2 ^ 52 := toNat_mantissa x.toBits.toBitVec
  have hbias : Float.Model.Format.binary64.exponentBias = 1023 := by decide
  have hunpack : x.toModel.unpack = UnpackedFloat.unpack .binary64 x.toBits.toBitVec := rfl
  have hones : (-1#11).toNat = 2047 := rfl
  have hnone : (0#11).toNat = 0 := rfl
  have hempty : (0#52).toNat = 0 := rfl
  rw [hunpack, UnpackedFloat.unpack]
  simp only [sign_eq, ofFloat, Nat.pow_eq, ← BitVec.toNat_inj, hexponent, hmantissa, hones, hnone,
    hempty]
  by_cases hspecial : x.toBits.toNat / 2 ^ 52 % 2048 = 2047
  · rw [if_pos hspecial, if_pos hspecial]
    by_cases hzero : x.toBits.toNat % 2 ^ 52 = 0
    · rw [if_neg (not_not.2 hzero), if_pos hzero]
      by_cases hneg : 2 ^ 63 ≤ x.toBits.toNat
      · rw [if_pos hneg, if_pos (decide_eq_true hneg), ofUnpacked]
      · rw [if_neg hneg, if_neg (by simpa using hneg), ofUnpacked]
    · rw [if_pos hzero, if_neg hzero, ofUnpacked]
  · rw [if_neg hspecial, if_neg hspecial]
    by_cases hsubnormal : x.toBits.toNat / 2 ^ 52 % 2048 = 0
    · rw [if_pos hsubnormal, if_pos hsubnormal]
      by_cases hzero : x.toBits.toNat % 2 ^ 52 = 0
      · rw [dif_pos hzero, ofUnpacked, sign_beq, hzero]
      · rw [dif_neg hzero, ofUnpacked, sign_beq, hsubnormal]
        rfl
    · rw [if_neg hsubnormal, if_neg hsubnormal, ofUnpacked, sign_beq, toNat_normal, hmantissa]
      rfl

/-! ## The positive finite doubles -/

/-- The mantissa and the exponent of a positive finite double are in its bits. -/
theorem bits_of_ofFloat {x : Float} {m : Nat} {q : ℤ} (h : ofFloat x = .finite false m q) :
    x.toBits.toNat < 2 ^ 63 ∧
      (x.toBits.toNat / 2 ^ 52 = 0 ∧ m = x.toBits.toNat % 2 ^ 52 ∧ q = -1074 ∨
        0 < x.toBits.toNat / 2 ^ 52 ∧ x.toBits.toNat / 2 ^ 52 < 2047 ∧
          m = 2 ^ 52 + x.toBits.toNat % 2 ^ 52 ∧ q = (x.toBits.toNat / 2 ^ 52 : Nat) - 1075) := by
  have hlt : x.toBits.toNat < 2 ^ 64 := x.toBits.toNat_lt
  simp only [ofFloat, Nat.pow_eq] at h
  split at h
  · split at h
    · cases h
    · split at h <;> cases h
  · split at h
    · obtain ⟨hpositive, rfl, rfl⟩ := Binary64.finite.inj h
      have hsign := of_decide_eq_false hpositive
      omega
    · obtain ⟨hpositive, rfl, rfl⟩ := Binary64.finite.inj h
      have hsign := of_decide_eq_false hpositive
      omega

/-- A positive finite double is one by its pair of mantissa and exponent, and so are its bits. -/
theorem of_unpack {x : Float} {m : Nat} {q : ℤ} {hm : 0 < m}
    (hx : x.toModel.unpack = .finite .positive m q hm) :
    ofFloat x = .finite false m q ∧ Canonical m q ∧ floatOfBits (pattern m q) = x := by
  have hparts : ofFloat x = .finite false m q := by
    rw [ofFloat_eq, hx]
    rfl
  obtain ⟨hsign, hbits⟩ := bits_of_ofFloat hparts
  have hpattern : pattern m q = x.toBits.toNat := by
    rw [pattern]
    omega
  refine ⟨hparts, ?_, ?_⟩
  · constructor <;> omega
  · rw [floatOfBits, hpattern, UInt64.ofNat_toNat, Float.ofBits_toBits]

/-! ## The range of plain texts -/

theorem unpack_least : (1e-4 : Float).toModel.unpack =
    .finite .positive 0x1a36e2eb1c432d (-66) (by decide) := rfl

theorem unpack_greatest : (1e16 : Float).toModel.unpack =
    .finite .positive 5000000000000000 1 (by decide) := rfl

/-- The pairs of the doubles from `1e-4` to below `1e16`. Positive doubles are compared by exponent,
then by mantissa. -/
structure IsPlain (m : Nat) (q : ℤ) : Prop where
  least : -66 < q ∨ -66 = q ∧ 0x1a36e2eb1c432d ≤ m
  greatest : q < 1 ∨ q = 1 ∧ m < 5000000000000000

theorem exists_of_between {x : Float} (hleast : 1e-4 ≤ x) (hgreatest : x < 1e16) :
    ∃ m q hm, x.toModel.unpack = .finite .positive m q hm ∧ IsPlain m q := by
  have hleast : (1e-4 : Float).toModel.unpack.le x.toModel.unpack = true :=
    of_decide_eq_true (p := _ ≤ _) hleast
  have hgreatest : x.toModel.unpack.lt (1e16 : Float).toModel.unpack = true :=
    of_decide_eq_true (p := _ < _) hgreatest
  rw [unpack_least] at hleast
  rw [unpack_greatest] at hgreatest
  cases hx : x.toModel.unpack with
  | notANumber =>
    rw [hx] at hleast
    cases hleast
  | zero s =>
    rw [hx] at hleast
    cases hleast
  | infinity s =>
    rw [hx] at hleast hgreatest
    cases s with
    | positive => cases hgreatest
    | negative => cases hleast
  | finite s m q hm =>
    rw [hx] at hleast hgreatest
    cases s with
    | negative => cases hleast
    | positive =>
      refine ⟨m, q, hm, rfl, ?_, ?_⟩
      · simpa [UnpackedFloat.le, UnpackedFloat.compare, Ordering.isLE_then_iff_or,
          Int.compare_eq_lt, Nat.isLE_compare] using hleast
      · simpa [UnpackedFloat.lt, UnpackedFloat.compare, Ordering.then_eq_lt, Int.compare_eq_lt,
          Nat.compare_eq_lt] using hgreatest

end FormulaGraph.Double
