import FormulaGraph.Number.Exact
import FormulaGraph.Number.Float
import FormulaGraph.Solver.Secant
/-!
# Numbers that compare as they should

A guard in the library is a comparison. That it keeps out what it is there to keep out rests on few
laws of the order, which doubles and exact numbers have alike: what is undefined is below nothing, a
zero of either sign is compared as zero, and zero is below the threshold of a collapsed slope, not
below itself.

**Doubles.** Two doubles are compared as they are taken apart, by sign, exponent and mantissa. So
the laws are theorems about that comparison, and nothing is assumed of the machine.
-/
namespace FormulaGraph

/-- The laws of comparison that guards rest on. -/
class LawfulScalar (α : Type) [Scalar α] : Prop where
  nan_lt (y : α) : Scalar.lt Scalar.nan y = false
  lt_of_isZero (x y : α) (h : Scalar.isZero x = true) : Scalar.lt x y = Scalar.lt Scalar.zero y
  zero_lt_zero : Scalar.lt (Scalar.zero : α) Scalar.zero = false
  zero_lt_stall : Scalar.lt (Scalar.zero : α) Secant.stall = true

namespace Scalar

variable {α : Type} [Scalar α] [LawfulScalar α]

/-- What is undefined is not near zero. -/
theorem abs_nan_lt (y : α) : lt (abs nan) y = false := by
  have hself : abs (nan : α) = nan := by
    rw [abs, LawfulScalar.nan_lt]
    rfl
  rw [hself, LawfulScalar.nan_lt]

/-- A slope whose rise is zero has collapsed. -/
theorem abs_lt_stall_of_isZero {x : α} (h : isZero x = true) : lt (abs x) Secant.stall = true := by
  have hself : abs x = x := by
    rw [abs, LawfulScalar.lt_of_isZero x zero h, LawfulScalar.zero_lt_zero]
    rfl
  rw [hself, LawfulScalar.lt_of_isZero x _ h, LawfulScalar.zero_lt_stall]

end Scalar

/-! ## Exact numbers -/

instance : LawfulScalar Exact where
  nan_lt _ := rfl
  lt_of_isZero x y h := by
    obtain rfl : x = .value 0 := of_decide_eq_true h
    have hzero : (Scalar.zero : Exact) = .value 0 := by decide +kernel
    rw [hzero]
  zero_lt_zero := by decide +kernel
  zero_lt_stall := by decide +kernel

/-! ## Doubles -/

namespace Double

open Float.Model (UnpackedFloat)

theorem lt_eq (x y : Float) : Scalar.lt x y = x.toModel.unpack.lt y.toModel.unpack := by
  rw [Bool.eq_iff_iff]
  show decide (x < y) = true ↔ _
  rw [decide_eq_true_iff]
  show decide (x.toModel < y.toModel) = true ↔ _
  rw [decide_eq_true_iff]
  exact Iff.rfl

/-- What equals zero is a zero, of either sign. -/
theorem exists_of_beq_zero {u : UnpackedFloat} {s : UnpackedFloat.Sign}
    (h : u.beq (.zero s) = true) : ∃ s', u = .zero s' := by
  cases u with
  | zero s' => exact ⟨s', rfl⟩
  | notANumber => cases h
  | infinity s' => cases s' <;> cases h
  | finite s' => cases s' <;> cases h

theorem exists_of_isZero {x : Float} (h : Scalar.isZero x = true) :
    ∃ s, x.toModel.unpack = .zero s := by
  have hzero : (0 : Float).toModel.unpack = .zero .positive := rfl
  have hbeq : x.toModel.unpack.beq (0 : Float).toModel.unpack = true := h
  rw [hzero] at hbeq
  exact exists_of_beq_zero hbeq

/-- The sign of a zero does not show in a comparison. -/
theorem zero_lt_eq (s s' : UnpackedFloat.Sign) (u : UnpackedFloat) :
    (UnpackedFloat.zero s).lt u = (UnpackedFloat.zero s').lt u := by
  cases u with
  | zero _ => rfl
  | notANumber => rfl
  | infinity t => cases t <;> rfl
  | finite t => cases t <;> rfl

theorem notANumber_lt (u : UnpackedFloat) : UnpackedFloat.notANumber.lt u = false := rfl

end Double

instance : LawfulScalar Float where
  nan_lt y := by
    have hnan : (Scalar.nan : Float).toModel.unpack = .notANumber := rfl
    rw [Double.lt_eq, hnan, Double.notANumber_lt]
  lt_of_isZero x y h := by
    obtain ⟨s, hs⟩ := Double.exists_of_isZero h
    have hzero : (Scalar.zero : Float).toModel.unpack = .zero .positive := rfl
    rw [Double.lt_eq, Double.lt_eq, hs, hzero, Double.zero_lt_eq]
  zero_lt_zero := by decide +kernel
  zero_lt_stall := by decide +kernel

end FormulaGraph
