import Mathlib.Algebra.Field.Rat
import Mathlib.Tactic.FieldSimp
import FormulaGraph.Proofs.Expr.Evaluation
import FormulaGraph.Solver.Inversion
/-!
# Inverting one operation

In exact arithmetic an inverted operation gives the target back when it is applied, with one
exception: for `rest / x` only the target is checked, so that a `rest` of zero gives `x = 0`, by
which the division cannot be done.

* `applyOperator_invertLeft`: the wanted operand on the left.
* `applyOperator_invertRight`: the wanted operand on the right.
* `evaluate_of_invert`: an inverted expression, with the value it gave for the name.
-/
namespace FormulaGraph

namespace Exact

theorem value_add (a b : Rat) : value a + value b = value (a + b) := rfl

theorem value_sub (a b : Rat) : value a - value b = value (a - b) := rfl

theorem value_mul (a b : Rat) : value a * value b = value (a * b) := rfl

theorem value_div (a : Rat) {b : Rat} (hb : b ≠ 0) : value a / value b = value (a / b) :=
  if_neg hb

theorem isZero_value (a : Rat) : Scalar.isZero (value a) = decide (a = 0) := by
  simp [Scalar.isZero]

end Exact

namespace Expr

open Exact

theorem quotient?_eq_some {a b : Rat} {x : Exact} (h : quotient? (value a) (value b) = some x) :
    b ≠ 0 ∧ x = value (a / b) := by
  unfold quotient? at h
  rw [isZero_value] at h
  split at h
  · cases h
  · rename_i hb
    have hb : b ≠ 0 := by simpa using hb
    rw [value_div a hb] at h
    exact ⟨hb, (Option.some.inj h).symm⟩

theorem applyOperator_div {a b : Rat} (hb : b ≠ 0) :
    applyOperator .div (value a) (value b) = .ok (value (a / b)) := by
  simp [applyOperator, isZero_value, hb, value_div a hb]

/-! ## The six shapes -/

/-- The wanted operand on the left. -/
theorem applyOperator_invertLeft {op : Operator} {w q : Rat} {x : Exact}
    (h : invertLeft op (value w) (value q) = some x) :
    ∃ a : Rat, x = value a ∧ applyOperator op (value a) (value w) = .ok (value q) := by
  cases op with
  | add =>
    refine ⟨q - w, (Option.some.inj h).symm, ?_⟩
    rw [applyOperator, value_add, sub_add_cancel]
  | sub =>
    refine ⟨q + w, (Option.some.inj h).symm, ?_⟩
    rw [applyOperator, value_sub, add_sub_cancel_right]
  | mul =>
    obtain ⟨hw, rfl⟩ := quotient?_eq_some h
    refine ⟨q / w, rfl, ?_⟩
    rw [applyOperator, value_mul, div_mul_cancel₀ q hw]
  | div =>
    rw [invertLeft, isZero_value] at h
    split at h
    · cases h
    · rename_i hw
      have hw : w ≠ 0 := by simpa using hw
      refine ⟨q * w, (Option.some.inj h).symm, ?_⟩
      rw [applyOperator_div hw, mul_div_cancel_right₀ q hw]

/-- The wanted operand on the right. -/
theorem applyOperator_invertRight {op : Operator} {w q : Rat} {x : Exact}
    (h : invertRight op (value w) (value q) = some x) :
    ∃ a : Rat, x = value a ∧ applyOperator op (value w) (value a) =
      if op = .div ∧ w = 0 then .error .divisionByZero else .ok (value q) := by
  cases op with
  | add =>
    refine ⟨q - w, (Option.some.inj h).symm, ?_⟩
    rw [applyOperator, value_add, add_sub_cancel]
    simp
  | sub =>
    refine ⟨w - q, (Option.some.inj h).symm, ?_⟩
    rw [applyOperator, value_sub, sub_sub_cancel]
    simp
  | mul =>
    obtain ⟨hw, rfl⟩ := quotient?_eq_some h
    refine ⟨q / w, rfl, ?_⟩
    rw [applyOperator, value_mul, mul_div_cancel₀ q hw]
    simp
  | div =>
    obtain ⟨hq, rfl⟩ := quotient?_eq_some h
    refine ⟨w / q, rfl, ?_⟩
    by_cases hw : w = 0
    · simp [hw, applyOperator, isZero_value]
    · rw [applyOperator_div (div_ne_zero hw hq), div_div_cancel₀ hw]
      simp [hw]

/-! ## Inverted expressions -/

theorem isVar_iff {α : Type} {e : Expr α} {name : Text} : e.isVar name = true ↔ e = .var name := by
  cases e <;> simp [isVar]

/-- What was inverted, and with which value of the other side. -/
theorem invert_eq_some {α : Type} [Scalar α] {ctx : Context α} {expr : Expr α} {name : Text}
    {target x : α} (h : expr.invert name target (Expr.evaluate ctx) = some x) :
    ∃ op rest w, rest.evaluate ctx = .ok w ∧
      (expr = .binary op (.var name) rest ∧ invertLeft op w target = some x ∨
        expr = .binary op rest (.var name) ∧ invertRight op w target = some x) := by
  unfold invert at h
  split at h
  · rename_i op left right
    dsimp only at h
    rcases Option.or_eq_some_iff.1 h with h | ⟨-, h⟩
    · split at h
      · rename_i hvar
        split at h
        · rename_i w hw
          exact ⟨op, right, w, hw, .inl ⟨by rw [isVar_iff.1 hvar], h⟩⟩
        · cases h
      · cases h
    · split at h
      · rename_i hvar
        split at h
        · rename_i w hw
          exact ⟨op, left, w, hw, .inr ⟨by rw [isVar_iff.1 hvar], h⟩⟩
        · cases h
      · cases h
  · cases h

/-- The expression divides an operand that is zero by the name. -/
def ZeroOver (ctx : Context Exact) (name : Text) (expr : Expr Exact) : Prop :=
  ∃ rest, expr = .binary .div rest (.var name) ∧ rest.evaluate ctx = .ok (value 0)

theorem evaluate_var_set (ctx : Context Exact) (name : Text) (a : Rat) :
    (Expr.var name).evaluate (ctx.set name (value a)) = .ok (value a) := by
  simp [evaluate, Context.set, finite, Scalar.special?]

/-- An inverted expression has the target as its value, unless zero is divided by the name. -/
theorem evaluate_of_invert {ctx : Context Exact} {expr : Expr Exact} {name : Text}
    (hname : ctx name = none) {q : Rat} {x : Exact}
    (h : expr.invert name (value q) (Expr.evaluate ctx) = some x) :
    (¬ZeroOver ctx name expr → expr.evaluate (ctx.set name x) = .ok (value q)) ∧
    (ZeroOver ctx name expr → expr.evaluate (ctx.set name x) = .error .divisionByZero) := by
  obtain ⟨op, rest, w, hrest, hside⟩ := invert_eq_some h
  obtain ⟨w, rfl⟩ := exists_value_of_evaluate_eq_ok hrest
  have hrest' := evaluate_set hrest hname x
  rcases hside with ⟨rfl, hleft⟩ | ⟨rfl, hright⟩
  · obtain ⟨a, rfl, ha⟩ := applyOperator_invertLeft hleft
    rw [evaluate_binary (evaluate_var_set ctx name a) hrest', ha]
    refine ⟨fun _ => rfl, ?_⟩
    -- on the right would stand the name, which the context lacks
    rintro ⟨left, heq, -⟩
    simp only [binary.injEq] at heq
    obtain ⟨-, -, rfl⟩ := heq
    simp [evaluate, hname] at hrest
  · obtain ⟨a, rfl, ha⟩ := applyOperator_invertRight hright
    rw [evaluate_binary hrest' (evaluate_var_set ctx name a), ha]
    constructor
    · intro hzero
      have : ¬(op = .div ∧ w = 0) := by
        rintro ⟨rfl, rfl⟩
        exact hzero ⟨rest, rfl, hrest⟩
      rw [if_neg this]
      rfl
    · rintro ⟨left, heq, hleft⟩
      simp only [binary.injEq, and_true] at heq
      obtain ⟨rfl, rfl⟩ := heq
      have hw : w = 0 := by
        have := hrest.symm.trans hleft
        simpa using this
      rw [if_pos ⟨rfl, hw⟩]
      rfl

end Expr

end FormulaGraph
