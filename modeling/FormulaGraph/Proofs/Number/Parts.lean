import FormulaGraph.Proofs.Number.Doubles
import FormulaGraph.Proofs.Number.Lawful
/-!
# Doubles compared with zero, and doubles from their bits

A double is compared by its parts, so what the parts of a double are says how it compares with zero.
A double that is given by its bits has the parts that the bits spell.

* `zero_lt_or_isNan`: what is neither below zero nor zero is above zero, or undefined.
* `exists_ofFloat_floatOfBits`: the parts of a double that is given by its bits.
-/
namespace FormulaGraph.Double

open Binary64
open Float.Model (UnpackedFloat)

/-! ## What a double is compared as -/

theorem isNan_iff {x : Float} :
    Scalar.isNan x = true ↔ x.toModel.unpack = .notANumber := by
  simp only [Scalar.isNan, Scalar.special?, ofFloat_eq]
  cases x.toModel.unpack with
  | notANumber => simp [ofUnpacked]
  | zero s => simp [ofUnpacked]
  | finite s m q hm => simp [ofUnpacked]
  | infinity s => cases s <;> simp [ofUnpacked]

/-- What is neither below zero nor zero is above zero or undefined. -/
theorem zero_lt_or_isNan {x : Float} (hlt : Scalar.lt x Scalar.zero = false)
    (hzero : Scalar.isZero x = false) : Scalar.lt Scalar.zero x = true ∨ Scalar.isNan x = true := by
  have hunpack : (Scalar.zero : Float).toModel.unpack = .zero .positive := rfl
  have hbeq : x.toModel.unpack.beq (.zero .positive) = false := hzero
  rw [lt_eq, hunpack] at hlt ⊢
  rw [isNan_iff]
  cases hx : x.toModel.unpack with
  | notANumber => exact .inr rfl
  | zero s =>
    rw [hx] at hbeq
    cases hbeq
  | finite s m q hm =>
    rw [hx] at hlt
    cases s with
    | positive => exact .inl rfl
    | negative => cases hlt
  | infinity s =>
    rw [hx] at hlt
    cases s with
    | positive => exact .inl rfl
    | negative => cases hlt

theorem not_isNan_of_zero_lt {x : Float} (h : Scalar.lt Scalar.zero x = true) :
    ¬Scalar.isNan x = true := by
  intro hnan
  rw [lt_eq, isNan_iff.1 hnan] at h
  cases h

/-- What has positive parts is above zero. -/
theorem zero_lt_of_ofFloat {x : Float} {m : Nat} {q : ℤ} (hm : 0 < m)
    (h : ofFloat x = .finite false m q) : Scalar.lt Scalar.zero x = true := by
  have hunpack : (Scalar.zero : Float).toModel.unpack = .zero .positive := rfl
  rw [ofFloat_eq] at h
  rw [lt_eq, hunpack]
  cases hx : x.toModel.unpack with
  | notANumber =>
    rw [hx] at h
    cases h
  | zero s =>
    rw [hx, ofUnpacked] at h
    obtain ⟨-, hzero, -⟩ := Binary64.finite.inj h
    omega
  | infinity s =>
    rw [hx] at h
    cases s <;> cases h
  | finite s m q hm =>
    rw [hx] at h
    cases s with
    | positive => rfl
    | negative => cases h

/-! ## Doubles from their bits -/

/-- The bits of a number that is not negative are kept. -/
theorem toNat_toBits_floatOfBits {b : Nat} (h : b ≤ infinityBits) :
    (floatOfBits b).toBits.toNat = b := by
  have hinf : infinityBits = 2047 * 2 ^ 52 := rfl
  have hnat : (UInt64.ofNat b).toNat = b := by
    rw [UInt64.toNat_ofNat', Nat.mod_eq_of_lt (by omega)]
  have hvalid : Float.Model.Format.binary64.Valid (UInt64.ofNat b).toBitVec := by
    refine ⟨fun hexponent hmantissa => absurd ?_ hmantissa⟩
    have hbiased := toNat_exponent (UInt64.ofNat b).toBitVec
    have hfraction := toNat_mantissa (UInt64.ofNat b).toBitVec
    rw [hexponent] at hbiased
    have hbiased : 2047 = (UInt64.ofNat b).toNat / 2 ^ 52 % 2048 := hbiased
    have hzero : (UInt64.ofNat b).toNat % 2 ^ 52 = 0 := by omega
    exact BitVec.eq_of_toNat_eq (hfraction.trans hzero)
  have hpack : (floatOfBits b).toBits = UInt64.ofNat b :=
    congrArg UInt64.ofBitVec (UnpackedFloat.pack_unpack_of_valid hvalid)
  rw [hpack, hnat]

/-- The patterns of positive doubles. -/
theorem exists_ofFloat_floatOfBits {b : Nat} (hpos : 0 < b) (h : b < infinityBits) :
    ∃ m q, 0 < m ∧ ofFloat (floatOfBits b) = .finite false m q := by
  have hbits := toNat_toBits_floatOfBits h.le
  have hinf : infinityBits = 2047 * 2 ^ 52 := rfl
  have hnegative : ¬Nat.pow 2 63 ≤ b := by
    rw [Nat.pow_eq]
    omega
  have hfinite : ¬b / Nat.pow 2 52 % 2048 = 2047 := by
    rw [Nat.pow_eq]
    omega
  simp only [ofFloat, hbits, decide_eq_false hnegative, if_neg hfinite]
  split
  · rename_i hsubnormal
    rw [Nat.pow_eq] at hsubnormal
    refine ⟨_, _, ?_, rfl⟩
    rw [Nat.pow_eq]
    omega
  · refine ⟨_, _, ?_, rfl⟩
    rw [Nat.pow_eq]
    omega

theorem ofFloat_infinity : ofFloat (floatOfBits infinityBits) = .special .infinity := by
  decide +kernel

end FormulaGraph.Double
