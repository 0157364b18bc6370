import FormulaGraph.Proofs.Number.Lawful
import FormulaGraph.Proofs.Solver.Reached
/-!
# What the guards of the solver keep out

A secant step divides by the rise between the last two points. It is taken only where the slope has
not collapsed, so the rise is never zero: the search that stops at a division by zero (`search?`)
is the search (`search?_eq`). A guess is not checked when it is accepted. But where a formula is
solved, the function is undefined at a guess that is no finite number, as the formula mentions its
name, and what is undefined is not near zero.

* `solve?_eq`: no search divides by zero.
* `isFinite_of_solveChild`: an answer for a child is a finite number.
* `solve_accepts`: these, with the answers of the search itself.
-/
namespace FormulaGraph

namespace Secant

variable {α σ : Type} [Scalar α]

/-- The search with every division checked; nothing when it comes to one by zero. -/
def search? (f : α → α) (settings : SolverSettings α) (draw : σ → Nat × σ) :
    (remaining iteration : Nat) → State α σ → Option (Solved α)
  | 0, _, s => some (lastResort settings s)
  | remaining + 1, iteration, s =>
    if Scalar.lt (Scalar.abs s.f1) settings.tolerance then some (accepted s.x1 (iteration - 1))
    else if Scalar.lt (Scalar.abs (s.f1 - s.f0)) stall then
      let (x1, source) := perturb draw settings.perturbation s.x1 s.source
      search? f settings draw remaining (iteration + 1) { s with x1, f1 := f x1, source }
    else
      match Expr.quotient? (s.f1 * (s.x1 - s.x0)) (s.f1 - s.f0) with
      | none => none
      | some q =>
        let next := s.x1 - q
        if !Scalar.isFinite next then some (refused .diverged iteration)
        else
          let value := f next
          if Scalar.isNan value then some (refused .nanResult iteration)
          else
            search? f settings draw remaining (iteration + 1)
              ⟨s.x1, s.f1, next, value, s.source⟩

/-- Searches a root of `f` from a guess, with every division checked. -/
def solve? (f : α → α) (guess : α) (settings : SolverSettings α) (draw : σ → Nat × σ)
    (source : σ) : Option (Solved α) :=
  let x1 := secondGuess guess
  search? f settings draw settings.maxIterations.toNat 1 ⟨guess, f guess, x1, f x1, source⟩

variable [LawfulScalar α]

/-- Where the slope has not collapsed, its rise can be divided by. -/
theorem quotient?_of_not_stalled {x d : α} (h : ¬Scalar.lt (Scalar.abs d) stall = true) :
    Expr.quotient? x d = some (x / d) :=
  if_neg fun hzero => h (Scalar.abs_lt_stall_of_isZero hzero)

theorem search?_eq (f : α → α) (settings : SolverSettings α) (draw : σ → Nat × σ)
    (remaining iteration : Nat) (s : State α σ) :
    search? f settings draw remaining iteration s =
      some (search f settings draw remaining iteration s) := by
  induction remaining generalizing iteration s with
  | zero => rfl
  | succ remaining ih =>
    rw [search?, search]
    split
    · rfl
    · split
      · exact ih _ _
      · rename_i hsloped
        simp only [quotient?_of_not_stalled hsloped]
        split
        · rfl
        · split
          · rfl
          · exact ih _ _

theorem solve?_eq (f : α → α) (guess : α) (settings : SolverSettings α) (draw : σ → Nat × σ)
    (source : σ) :
    solve? f guess settings draw source = some (solve f guess settings draw source) :=
  search?_eq f settings draw _ 1 _

/-- A function that is undefined where it has no value has one where it is near zero. -/
theorem exists_value_of_nearZero {expr : Expr α} {siblings : Context α} {name : Text}
    {target x : α} {settings : SolverSettings α}
    (h : NearZero settings (Registry.distance expr siblings name target x)) :
    ∃ w, expr.evaluate (siblings.set name x) = .ok w := by
  unfold Registry.distance at h
  cases hvalue : expr.evaluate (siblings.set name x) with
  | ok w => exact ⟨w, rfl⟩
  | error e =>
    simp only [hvalue, NearZero, Scalar.abs_nan_lt] at h
    rcases h with h | h
    · cases h
    · cases h

end Secant

namespace Registry

variable {α σ : Type} [Scalar α] [LawfulScalar α]

/-- The formula was evaluated with the answer under the name of the child. -/
theorem isFinite_of_solveChild {r : Registry α} {parent child : Text} {target v : α}
    {settings : SolverSettings α} {draw : σ → Nat × σ} {source : σ}
    (hv : (r.solveChild parent child target settings draw source).outcome = .ok v)
    (hm : (r.solveChild parent child target settings draw source).method = some .numerical) :
    Scalar.isFinite v = true := by
  obtain ⟨p, c, expr, -, hname, hstage⟩ := solveChild_eq_ok hv
  rw [hstage] at hv hm
  obtain ⟨w, hw⟩ := Secant.exists_value_of_nearZero (solveFormula_numerical hv hm)
  obtain ⟨x, hx, hfinite⟩ := Expr.exists_finite_of_evaluate_eq_ok hw c.name hname
  rw [Context.set, if_pos rfl] at hx
  obtain rfl := Option.some.inj hx
  rw [Scalar.isFinite, hfinite, Option.isNone_none]

/-- **Answers of the secant method.** Whatever the function, the guess, the settings and the draws:
an answer comes within the iterations, the function is within the tolerance of zero there while
iterations are left and within ten tolerances when they are spent, and no division is by zero. Where
a child is solved for, the answer is a finite number. -/
theorem solve_accepts (settings : SolverSettings α) (draw : σ → Nat × σ) (source : σ) :
    (∀ (f : α → α) (guess v : α) (m : Option SolveMethod) (k : Int),
      Secant.solve f guess settings draw source = ⟨.ok v, m, k⟩ →
        k ≤ settings.maxIterations ∧
        (k < settings.maxIterations → Scalar.lt (Scalar.abs (f v)) settings.tolerance = true) ∧
        (¬k < settings.maxIterations →
          Scalar.lt (Scalar.abs (f v)) (settings.tolerance * Scalar.ofInt 10) = true)) ∧
    (∀ (f : α → α) (guess : α), Secant.solve? f guess settings draw source =
      some (Secant.solve f guess settings draw source)) ∧
    ∀ (r : Registry α) (parent child : Text) (target v : α),
      (r.solveChild parent child target settings draw source).outcome = .ok v →
      (r.solveChild parent child target settings draw source).method = some .numerical →
      Scalar.isFinite v = true := by
  refine ⟨fun f guess v m k h => ?_, fun f guess => ?_, fun r parent child target v hv hm => ?_⟩
  · obtain ⟨hle, hearly, hlate⟩ := Secant.accepts_of_solve h
    exact ⟨hle, hearly, hlate⟩
  · exact Secant.solve?_eq f guess settings draw source
  · exact isFinite_of_solveChild hv hm

/-- A formula that mentions its only child twice. -/
def square : Registry Float where
  nodes := .ofList
    [("s", ⟨"s", "side", .factor 1, [], ["a"], some 1, .null, .null⟩),
     ("a", ⟨"a", "area", .formula (some "side * side"), [.text "s"], [], some 1, .null, .null⟩)]
  roots := ["a"]

/-- How far the area is from two. -/
def offTwo (side : Float) : Float := side * side - 2

def rootOfTwo (settings : SolverSettings Float) : Solved Float :=
  Secant.solve offTwo 1 settings (fun _ => (0, ())) ()

def sideOfTwo : Solved Float := square.solveChild "a" "s" 2 .standard (fun _ => (0, ())) ()

/-- One guess, accepted with an iteration left, and for ten tolerances when all are spent. -/
theorem solve_accepts_square :
    rootOfTwo ⟨4, 0.001, .random, 0⟩ = ⟨.ok 1.4140510503175379, some .numerical, 3⟩ ∧
    rootOfTwo ⟨3, 0.0001, .random, 0⟩ = ⟨.ok 1.4140510503175379, some .numerical, 3⟩ ∧
    Scalar.lt (Scalar.abs (offTwo 1.4140510503175379)) 0.001 = true ∧
    Scalar.lt (Scalar.abs (offTwo 1.4140510503175379)) (0.0001 * Scalar.ofInt 10) = true ∧
    Secant.solve? offTwo 1 ⟨3, 0.0001, .random, 0⟩ (fun _ => (0, ())) () =
      some (rootOfTwo ⟨3, 0.0001, .random, 0⟩) ∧
    ∃ v, sideOfTwo = ⟨.ok v, some .numerical, 5⟩ ∧ Scalar.isFinite v = true := by
  have hearly : rootOfTwo ⟨4, 0.001, .random, 0⟩ =
      ⟨.ok 1.4140510503175379, some .numerical, 3⟩ := by decide +kernel
  have hlate : rootOfTwo ⟨3, 0.0001, .random, 0⟩ =
      ⟨.ok 1.4140510503175379, some .numerical, 3⟩ := by decide +kernel
  obtain ⟨v, hv⟩ : ∃ v, sideOfTwo = ⟨.ok v, some .numerical, 5⟩ :=
    ⟨sideOfTwo.outcome.toOption.getD 0, by decide +kernel⟩
  obtain ⟨hfour, -, -⟩ := solve_accepts ⟨4, 0.001, .random, 0⟩ (fun _ => (0, ())) ()
  obtain ⟨hthree, hdivided, -⟩ := solve_accepts ⟨3, 0.0001, .random, 0⟩ (fun _ => (0, ())) ()
  obtain ⟨-, -, hside⟩ :=
    solve_accepts (.standard : SolverSettings Float) (fun _ => (0, ())) ()
  refine ⟨hearly, hlate, (hfour offTwo 1 _ _ 3 hearly).2.1 (by decide),
    (hthree offTwo 1 _ _ 3 hlate).2.2 (by decide), hdivided offTwo 1, v, hv, ?_⟩
  have houtcome : sideOfTwo.outcome = .ok v := by rw [hv]
  have hmethod : sideOfTwo.method = some .numerical := by rw [hv]
  exact hside square "a" "s" 2 v houtcome hmethod

end Registry

end FormulaGraph
