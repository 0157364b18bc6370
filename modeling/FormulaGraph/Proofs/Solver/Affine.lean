import FormulaGraph.Proofs.Solver.Secant
import Mathlib.Tactic.FieldSimp
import Mathlib.Tactic.Ring
/-!
# The secant method on a line

The line through two points of an affine function is the function. So in exact arithmetic a secant
step lands on the root, from any two points between which the slope has not collapsed, and the next
look at the value there ends the search.

**Spent iterations.** That look is the first thing an iteration does. When the step took the last
one, the value is looked at once more behind the search, against ten tolerances; zero is below
those too, so a single iteration is enough.

* `search_of_root`: a search that has arrived ends where it is.
* `search_onLine`: one step, or none.
* `solve_affine`: the answer, with its number of iterations.
-/
namespace FormulaGraph.Secant

variable {σ : Type} {m c : Rat}

/-- The function `m * x + c`. -/
def affine (m c : Rat) (x : Exact) : Exact := .value m * x + .value c

/-- The second guess for a number. -/
def firstMove (guess : Rat) : Rat := if guess = 0 then 1 else 11 / 10 * guess

/-- Two guesses with the values of an affine function. -/
def onLine (m c x0 x1 : Rat) (source : σ) : State Exact σ :=
  ⟨.value x0, .value (m * x0 + c), .value x1, .value (m * x1 + c), source⟩

theorem affine_value (m c x : Rat) : affine m c (.value x) = .value (m * x + c) := rfl

theorem affine_root (hm : m ≠ 0) : m * (-c / m) + c = 0 := by
  rw [mul_div_cancel₀ (-c) hm, neg_add_cancel]

theorem secondGuess_value (guess : Rat) :
    secondGuess (.value guess : Exact) = .value (firstMove guess) := by
  have hone : (Scalar.one : Exact) = .value 1 := Exact.ofInt_eq 1
  have hstep : (Scalar.fraction 11 1 : Exact) = .value (11 / 10) := by decide +kernel
  rw [secondGuess, Exact.isZero_value, hone, hstep, Exact.value_mul, mul_comm, firstMove]
  split
  · rename_i hzero
    rw [if_pos (of_decide_eq_true hzero)]
  · rename_i hzero
    rw [if_neg fun h => hzero (decide_eq_true h)]

theorem stall_eq : (stall : Exact) = .value (1 / 10 ^ 12) := by decide +kernel

theorem abs_value_lt {a b : Rat} :
    Scalar.lt (Scalar.abs (Exact.value a)) (.value b) = true ↔ |a| < b := by
  rw [Exact.abs_value]
  exact decide_eq_true_iff

/-- The line through two points of an affine function meets zero at its root. -/
theorem next_eq_root {x0 x1 : Rat} (hm : m ≠ 0) (hx : x1 - x0 ≠ 0) :
    x1 - (m * x1 + c) * (x1 - x0) / (m * (x1 - x0)) = -c / m := by
  rw [mul_div_mul_right _ _ hx]
  field_simp
  ring

section

variable {settings : SolverSettings Exact} {tolerance : Rat} {remaining iteration : Nat}
  (draw : σ → Nat × σ) (htolerance : settings.tolerance = .value tolerance)
  (hpositive : 0 < tolerance)

include htolerance hpositive

/-- Where the function is zero the search ends, in its last iteration or behind it. -/
theorem search_of_root (f : Exact → Exact)
    (hcount : (iteration + remaining : Int) = settings.maxIterations + 1) {s : State Exact σ}
    (hroot : s.f1 = .value 0) :
    search f settings draw remaining iteration s = accepted s.x1 (iteration - 1) := by
  cases remaining with
  | zero =>
    have hten : |(0 : Rat)| < tolerance * (10 : Int) := by
      rw [abs_zero]
      exact mul_pos hpositive (by norm_num)
    have hlast : settings.maxIterations = iteration - 1 := by omega
    rw [search, lastResort, hroot, htolerance, Exact.ofInt_eq, Exact.value_mul,
      if_pos (abs_value_lt.2 hten), hlast]
  | succ remaining =>
    have hzero : |(0 : Rat)| < tolerance := by rwa [abs_zero]
    rw [search, hroot, htolerance, if_pos (abs_value_lt.2 hzero)]

/-- One iteration on a line whose slope has not collapsed. -/
theorem search_onLine (hcount : (iteration + (remaining + 1) : Int) = settings.maxIterations + 1)
    {x0 x1 : Rat} (hslope : 1 / 10 ^ 12 ≤ |m * (x1 - x0)|) (source : σ) :
    search (affine m c) settings draw (remaining + 1) iteration (onLine m c x0 x1 source) =
      if |m * x1 + c| < tolerance then accepted (.value x1) (iteration - 1)
      else accepted (.value (-c / m)) iteration := by
  by_cases hnear : |m * x1 + c| < tolerance
  · rw [if_pos hnear, search, htolerance, onLine, if_pos (abs_value_lt.2 hnear)]
  · have hne : m * (x1 - x0) ≠ 0 := by
      rintro hzero
      rw [hzero, abs_zero] at hslope
      norm_num at hslope
    obtain ⟨hm, hx⟩ := mul_ne_zero_iff.1 hne
    have hrise : Exact.value (m * x1 + c) - .value (m * x0 + c) = .value (m * (x1 - x0)) := by
      rw [Exact.value_sub]
      congr 1
      ring
    have hsteep : ¬Scalar.lt (Scalar.abs (Exact.value (m * (x1 - x0)))) stall = true := by
      rw [stall_eq, abs_value_lt]
      exact not_lt.2 hslope
    have hnext : Exact.value x1 - .value (m * x1 + c) * (.value x1 - .value x0) /
        .value (m * (x1 - x0)) = .value (-c / m) := by
      rw [Exact.value_sub x1, Exact.value_mul, Exact.value_div _ hne, Exact.value_sub,
        next_eq_root hm hx]
    have hroot : affine m c (.value (-c / m)) = .value 0 := by
      rw [affine_value, affine_root hm]
    rw [if_neg hnear, search, htolerance, onLine, if_neg (mt abs_value_lt.1 hnear)]
    simp only [hrise, if_neg hsteep, hnext, hroot]
    -- a number is finite, and zero is not undefined
    exact (search_of_root draw htolerance hpositive _ (by omega) rfl).trans (by simp)

end

/-- **The secant method on a line.** In exact arithmetic, from any guess from which the slope does
not collapse and with at least one iteration: the answer is the second guess when the function is
within the tolerance of zero there, and otherwise the root, after one iteration. -/
theorem solve_affine {guess tolerance : Rat}
    (hslope : 1 / 10 ^ 12 ≤ |m * (firstMove guess - guess)|) (hpositive : 0 < tolerance)
    {maxIterations : Int} (hsome : 1 ≤ maxIterations) (c : Rat) (perturbation : Perturbation)
    (seed : Int) (draw : σ → Nat × σ) (source : σ) :
    solve (affine m c) (.value guess) ⟨maxIterations, .value tolerance, perturbation, seed⟩ draw
        source =
      if |m * firstMove guess + c| < tolerance then
        ⟨.ok (.value (firstMove guess)), some .numerical, 0⟩
      else ⟨.ok (.value (-c / m)), some .numerical, 1⟩ := by
  obtain ⟨remaining, hcount⟩ : ∃ remaining : Nat, maxIterations.toNat = remaining + 1 :=
    ⟨maxIterations.toNat - 1, by omega⟩
  rw [solve, secondGuess_value]
  simp only [hcount]
  exact search_onLine draw rfl hpositive (by dsimp only; omega) hslope source

/-- A single iteration is enough for `2 * x - 6`, and `2 * x - 2` needs none. -/
theorem solve_affine_double :
    (0 : Rat) < 1 / 1000 ∧ 1 / 10 ^ 12 ≤ |(2 : Rat) * (firstMove 0 - 0)| ∧
    solve (affine 2 (-6)) (.value 0) ⟨1, .value (1 / 1000), .random, 0⟩ (fun _ => (0, ())) () =
      ⟨.ok (.value 3), some .numerical, 1⟩ ∧
    solve (affine 2 (-2)) (.value 0) ⟨1, .value (1 / 1000), .random, 0⟩ (fun _ => (0, ())) () =
      ⟨.ok (.value 1), some .numerical, 0⟩ := by
  have hpositive : (0 : Rat) < 1 / 1000 := by norm_num
  have hslope : 1 / 10 ^ 12 ≤ |(2 : Rat) * (firstMove 0 - 0)| := by decide +kernel
  refine ⟨hpositive, hslope, ?_, ?_⟩
  · rw [solve_affine hslope hpositive (Int.le_refl 1) (-6)]
    decide +kernel
  · rw [solve_affine hslope hpositive (Int.le_refl 1) (-2)]
    decide +kernel

end FormulaGraph.Secant
