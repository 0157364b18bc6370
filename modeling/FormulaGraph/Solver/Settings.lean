import FormulaGraph.Number.Scalar
/-!
# Solver settings

How many secant steps are taken, how near to zero an answer has to be, and what is done where the
slope collapses.
-/
namespace FormulaGraph

/-- What moves a guess when the slope has collapsed. -/
inductive Perturbation where
  /-- Up or down by at most a fixed fraction of its magnitude, drawn at random. -/
  | random
  /-- Up by the whole fraction. -/
  | deterministic
  deriving DecidableEq, Repr

def Perturbation.text : Perturbation → String
  | .random => "random"
  | .deterministic => "deterministic"

structure SolverSettings (α : Type) where
  maxIterations : Int
  tolerance : α
  perturbation : Perturbation
  /-- What the random draws start from. -/
  seed : Int

/-- A hundred steps, a tolerance of a millionth, and random perturbation from seed 0. -/
def SolverSettings.standard {α : Type} [Scalar α] : SolverSettings α :=
  ⟨100, Scalar.fraction 1 6, .random, 0⟩

end FormulaGraph
