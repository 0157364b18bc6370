/-!
# Numbers of the formula language

Every definition of the library that computes with numbers is written once, over a type `α` with a
`Scalar` instance: expressions, nodes, evaluation and both stages of the solver.

**Two readings.** At `Float` the definitions run (`FormulaGraph.Number.Float`). At `Exact`, the
rationals with one undefined value, the same definitions are statements about exact arithmetic
(`FormulaGraph.Number.Exact`).

**Decimals in, specials out.** A literal enters as a `Decimal`, sign, coefficient and power of ten,
so the source of a number never depends on how `α` stores it. A value that is no finite number is
named by `Special`; it is the only thing about a number that an error text repeats.
-/
namespace FormulaGraph

/-- The values that are not finite numbers. -/
inductive Special where
  | infinity
  | negInfinity
  | nan
  deriving DecidableEq, Repr

/-- The name of a special value in messages and in plain output. -/
def Special.text : Special → String
  | .infinity => "inf"
  | .negInfinity => "-inf"
  | .nan => "nan"

/-- The decimal number `±coefficient · 10 ^ exponent`. -/
structure Decimal where
  negative : Bool
  coefficient : Nat
  exponent : Int
  deriving DecidableEq, Repr

namespace Decimal

def ofNat (n : Nat) : Decimal := ⟨false, n, 0⟩

def ofInt (i : Int) : Decimal := ⟨decide (i < 0), i.natAbs, 0⟩

/-- The value of a list of decimal digits, most significant first. -/
def digitsValue (ds : List Char) : Nat :=
  ds.foldl (fun n d => 10 * n + (d.toNat - '0'.toNat)) 0

end Decimal

/-- Numbers with the operations that formulas and the solver need. -/
class Scalar (α : Type) extends Add α, Sub α, Mul α, Div α, Neg α where
  /-- Strict order; false when either side is undefined. -/
  lt : α → α → Bool
  /-- Whether the number equals zero, of either sign. -/
  isZero : α → Bool
  /-- Which special value this is; `none` for a finite number. -/
  special? : α → Option Special
  ofSpecial : Special → α
  /-- The whole number that this is, if it is one. -/
  whole? : α → Option Int
  /-- The number nearest to a decimal. -/
  ofDecimal : Decimal → α
  /-- How messages show the number. -/
  text : α → String

namespace Scalar

variable {α : Type} [Scalar α]

def isFinite (x : α) : Bool := (special? x).isNone

def isNan (x : α) : Bool := special? x == some .nan

def nan : α := ofSpecial .nan

def ofInt (i : Int) : α := ofDecimal (.ofInt i)

/-- The number `coefficient / 10 ^ places`. -/
def fraction (coefficient places : Nat) : α := ofDecimal ⟨false, coefficient, -(places : Int)⟩

def zero : α := ofInt 0

def one : α := ofInt 1

def abs (x : α) : α := if lt x zero then -x else x

/-- Whether two numbers are equal in value; a special value equals itself. -/
def same (x y : α) : Bool := special? x == special? y && !lt x y && !lt y x

end Scalar

end FormulaGraph
