import FormulaGraph.Proofs.Solver.Inversion
import FormulaGraph.Solver.Secant
import Mathlib.Algebra.Order.Ring.Rat
import Mathlib.Tactic.Linarith
/-!
# Answers of the secant method

The search carries the value of the function at the newer guess with it (`State.Tracks`): every step
that moves the guess evaluates the function there. So a guess that is accepted is one at which the
function was seen to be near zero, within the tolerance or, as the last resort, within ten.

* `accepts_of_solve`: an answer comes within the iterations, and how near to zero the function is at
  it depends on whether any are left; `solve_eq_ok`: it is near zero in either case.
* `exists_of_nearZero`: what this says in exact arithmetic, where a value that is undefined is near
  nothing.
-/
namespace FormulaGraph

deriving instance DecidableEq for Solved

namespace Secant

variable {α σ : Type} [Scalar α]

/-- Within the tolerance of zero, or within ten tolerances. -/
def NearZero (settings : SolverSettings α) (y : α) : Prop :=
  Scalar.lt (Scalar.abs y) settings.tolerance = true ∨
    Scalar.lt (Scalar.abs y) (settings.tolerance * Scalar.ofInt 10) = true

/-- `x` may be the answer after `k` iterations: the function is within the tolerance of zero there
while iterations are left, and within ten tolerances when all are spent. -/
structure Accepts (f : α → α) (settings : SolverSettings α) (x : α) (k : Int) : Prop where
  le_maxIterations : k ≤ settings.maxIterations
  early : k < settings.maxIterations →
    Scalar.lt (Scalar.abs (f x)) settings.tolerance = true
  late : ¬k < settings.maxIterations →
    Scalar.lt (Scalar.abs (f x)) (settings.tolerance * Scalar.ofInt 10) = true

theorem Accepts.nearZero {f : α → α} {settings : SolverSettings α} {x : α} {k : Int}
    (h : Accepts f settings x k) : NearZero settings (f x) := by
  by_cases hk : k < settings.maxIterations
  · exact .inl (h.early hk)
  · exact .inr (h.late hk)

/-- The second value of the state is that of the function at the newer guess. -/
def State.Tracks (f : α → α) (s : State α σ) : Prop := s.f1 = f s.x1

theorem lastResort_eq_ok {f : α → α} {settings : SolverSettings α} {s : State α σ}
    (hs : s.Tracks f) {x : α} {m : Option SolveMethod} {k : Int}
    (h : lastResort settings s = ⟨.ok x, m, k⟩) : Accepts f settings x k := by
  unfold lastResort at h
  split at h
  · rename_i hnear
    cases h
    rw [hs] at hnear
    exact ⟨Int.le_refl _, fun hk => absurd hk (Int.lt_irrefl _), fun _ => hnear⟩
  · cases h

/-- A search that has `remaining` iterations left and is about to do number `iteration`. -/
theorem search_eq_ok {f : α → α} {settings : SolverSettings α} {draw : σ → Nat × σ}
    {remaining iteration : Nat} {s : State α σ} (hs : s.Tracks f) (hfirst : 1 ≤ iteration)
    (hcount : iteration + remaining = settings.maxIterations.toNat + 1)
    {x : α} {m : Option SolveMethod} {k : Int}
    (h : search f settings draw remaining iteration s = ⟨.ok x, m, k⟩) :
    Accepts f settings x k := by
  induction remaining generalizing iteration s with
  | zero => exact lastResort_eq_ok hs h
  | succ remaining ih =>
    rw [search] at h
    split at h
    · rename_i hnear
      cases h
      rw [hs] at hnear
      have hleft : (iteration : Int) - 1 < settings.maxIterations := by omega
      exact ⟨Int.le_of_lt hleft, fun _ => hnear, fun hk => absurd hleft hk⟩
    · split at h
      · -- the function was evaluated at the guess that was moved
        refine ih ?_ (by omega) (by omega) h
        rfl
      · dsimp only at h
        split at h
        · cases h
        · split at h
          · cases h
          · refine ih ?_ (by omega) (by omega) h
            rfl

theorem accepts_of_solve {f : α → α} {guess : α} {settings : SolverSettings α}
    {draw : σ → Nat × σ} {source : σ} {x : α} {m : Option SolveMethod} {k : Int}
    (h : solve f guess settings draw source = ⟨.ok x, m, k⟩) : Accepts f settings x k := by
  refine search_eq_ok ?_ (Nat.le_refl 1) (Nat.add_comm 1 _) h
  rfl

theorem solve_eq_ok {f : α → α} {guess : α} {settings : SolverSettings α} {draw : σ → Nat × σ}
    {source : σ} {x : α} (h : (solve f guess settings draw source).outcome = .ok x) :
    NearZero settings (f x) := by
  rcases hsolved : solve f guess settings draw source with ⟨outcome, m, k⟩
  rw [hsolved] at h
  obtain rfl : outcome = .ok x := h
  exact (accepts_of_solve hsolved).nearZero

end Secant

namespace Exact

theorem ofInt_eq (i : Int) : (Scalar.ofInt i : Exact) = value i := by
  change ofDecimal (.ofInt i) = value i
  simp only [ofDecimal, Decimal.ofInt, Nat.cast_natAbs, Int.cast_abs, decide_eq_true_eq]
  rcases lt_or_ge i 0 with hi | hi
  · have : (i : Rat) < 0 := Int.cast_lt_zero.2 hi
    simp [hi, abs_of_neg this]
  · have : (0 : Rat) ≤ i := Int.cast_nonneg hi
    simp [not_lt.2 hi, abs_of_nonneg this]

theorem lt_eq_true {x y : Exact} (h : Scalar.lt x y = true) :
    ∃ a b : Rat, x = value a ∧ y = value b ∧ a < b := by
  cases x with
  | undefined => cases h
  | value a =>
    cases y with
    | undefined => cases h
    | value b => exact ⟨a, b, rfl, rfl, of_decide_eq_true h⟩

theorem abs_value (a : Rat) : Scalar.abs (value a) = value |a| := by
  have hzero : (Scalar.zero : Exact) = value 0 := ofInt_eq 0
  rw [Scalar.abs, hzero]
  change (if decide (a < 0) = true then value (-a) else value a) = value |a|
  simp only [decide_eq_true_eq]
  split
  · rename_i ha
    rw [abs_of_neg ha]
  · rename_i ha
    rw [abs_of_nonneg (not_lt.1 ha)]

theorem exists_of_abs_eq_value {y : Exact} {b : Rat} (h : Scalar.abs y = value b) :
    ∃ a : Rat, y = value a ∧ b = |a| := by
  cases y with
  | undefined => cases h
  | value a =>
    rw [abs_value] at h
    exact ⟨a, rfl, (value.inj h).symm⟩

/-- What is near zero is a number, and less than ten tolerances from it. -/
theorem exists_of_nearZero {settings : SolverSettings Exact} {y : Exact}
    (h : Secant.NearZero settings y) :
    ∃ a t : Rat, y = value a ∧ settings.tolerance = value t ∧ |a| < 10 * t := by
  rcases h with hnear | hnear
  · obtain ⟨b, t, hb, ht, hlt⟩ := lt_eq_true hnear
    obtain ⟨a, ha, rfl⟩ := exists_of_abs_eq_value hb
    -- the tolerance is above an absolute value, so it is positive
    have := abs_nonneg a
    exact ⟨a, t, ha, ht, by linarith⟩
  · obtain ⟨b, u, hb, hu, hlt⟩ := lt_eq_true hnear
    obtain ⟨a, ha, rfl⟩ := exists_of_abs_eq_value hb
    cases ht : settings.tolerance with
    | undefined =>
      rw [ht] at hu
      cases hu
    | value t =>
      rw [ht, ofInt_eq, value_mul] at hu
      obtain rfl := value.inj hu
      refine ⟨a, t, ha, rfl, ?_⟩
      rw [mul_comm]
      exact_mod_cast hlt

end Exact

end FormulaGraph
