import FormulaGraph.Failure
import FormulaGraph.Solver.Settings
/-!
# The secant method

A root of a function is searched from two guesses by following the line through the last two points.
Where the slope has collapsed the newer guess is moved instead, which also counts as an iteration.

**Answers.** A guess is accepted when the function is within the tolerance of zero there, or, once
all iterations are spent, within ten tolerances. The search fails when a guess is not finite, when
the function is undefined at a guess that a step gave, or when the iterations are spent. A function
that has no value somewhere gives NaN there, which is never within a tolerance.

**Draws.** Random perturbation takes its numbers from `draw`, naturals below `2 ^ 53` with a state;
the method is the same for any source.
-/
namespace FormulaGraph

/-- The stage of the solver that an answer comes from. -/
inductive SolveMethod where
  | algebraic
  | numerical
  deriving DecidableEq, Repr

def SolveMethod.text : SolveMethod → String
  | .algebraic => "algebraic"
  | .numerical => "numerical"

/-- The answer of the solver, with the stage that was at work and its iterations. -/
structure Solved (α : Type) where
  outcome : Except Failure α
  method : Option SolveMethod
  iterations : Int

namespace Secant

variable {α : Type} [Scalar α]

/-- A slope whose rise is smaller than this has collapsed. -/
def stall : α := Scalar.fraction 1 12

/-- The fraction of a guess by which it is moved. -/
def nudge : α := Scalar.fraction 5 2

/-- The number in the unit interval that a draw stands for. -/
def unitInterval (draw : Nat) : α := Scalar.ofInt draw / Scalar.ofInt (Nat.pow 2 53)

/-- Two guesses with the values of the function, and the state of the draws. -/
structure State (α σ : Type) where
  x0 : α
  f0 : α
  x1 : α
  f1 : α
  source : σ

variable {σ : Type}

def accepted (x : α) (iterations : Int) : Solved α := ⟨.ok x, some .numerical, iterations⟩

def refused (why : Failure) (iterations : Int) : Solved α :=
  ⟨.error why, some .numerical, iterations⟩

/-- The newer guess moved, with the state of the draws behind it. -/
def perturb (draw : σ → Nat × σ) (p : Perturbation) (x : α) (source : σ) : α × σ :=
  let magnitude := if Scalar.isZero x then Scalar.one else Scalar.abs x
  match p with
  | .random =>
    let (n, source) := draw source
    (x + (unitInterval n - Scalar.fraction 5 1) * Scalar.ofInt 2 * nudge * magnitude, source)
  | .deterministic => (x + nudge * magnitude, source)

/-- The answer when all iterations are spent. -/
def lastResort (settings : SolverSettings α) (s : State α σ) : Solved α :=
  if Scalar.lt (Scalar.abs s.f1) (settings.tolerance * Scalar.ofInt 10) then
    accepted s.x1 settings.maxIterations
  else refused (.didNotConverge settings.maxIterations) settings.maxIterations

/-- Searches with `remaining` iterations left, of which the next is number `iteration`. -/
def search (f : α → α) (settings : SolverSettings α) (draw : σ → Nat × σ) :
    (remaining iteration : Nat) → State α σ → Solved α
  | 0, _, s => lastResort settings s
  | remaining + 1, iteration, s =>
    if Scalar.lt (Scalar.abs s.f1) settings.tolerance then accepted s.x1 (iteration - 1)
    else if Scalar.lt (Scalar.abs (s.f1 - s.f0)) stall then
      let (x1, source) := perturb draw settings.perturbation s.x1 s.source
      search f settings draw remaining (iteration + 1) { s with x1, f1 := f x1, source }
    else
      let next := s.x1 - s.f1 * (s.x1 - s.x0) / (s.f1 - s.f0)
      if !Scalar.isFinite next then refused .diverged iteration
      else
        let value := f next
        if Scalar.isNan value then refused .nanResult iteration
        else
          search f settings draw remaining (iteration + 1)
            ⟨s.x1, s.f1, next, value, s.source⟩

/-- The second guess. -/
def secondGuess (guess : α) : α :=
  if Scalar.isZero guess then Scalar.one else guess * Scalar.fraction 11 1

/-- Searches a root of `f` from a guess. -/
def solve (f : α → α) (guess : α) (settings : SolverSettings α) (draw : σ → Nat × σ) (source : σ) :
    Solved α :=
  let x1 := secondGuess guess
  search f settings draw settings.maxIterations.toNat 1 ⟨guess, f guess, x1, f x1, source⟩

end Secant

end FormulaGraph
