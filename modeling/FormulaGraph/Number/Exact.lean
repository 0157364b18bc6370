import FormulaGraph.Number.Scalar
/-!
# Exact numbers

The rationals with one undefined value. Division by zero is undefined, and an operation on the
undefined value is undefined, so a finite answer of a generic definition at `Exact` is the answer of
exact arithmetic.
-/
namespace FormulaGraph

inductive Exact where
  | value (q : Rat)
  | undefined
  deriving DecidableEq

namespace Exact

/-- The operation on two defined numbers. -/
def lift (f : Rat → Rat → Exact) : Exact → Exact → Exact
  | .value a, .value b => f a b
  | _, _ => .undefined

def add : Exact → Exact → Exact := lift fun a b => .value (a + b)

def sub : Exact → Exact → Exact := lift fun a b => .value (a - b)

def mul : Exact → Exact → Exact := lift fun a b => .value (a * b)

def div : Exact → Exact → Exact := lift fun a b => if b = 0 then .undefined else .value (a / b)

def neg : Exact → Exact
  | .value a => .value (-a)
  | .undefined => .undefined

def lt : Exact → Exact → Bool
  | .value a, .value b => decide (a < b)
  | _, _ => false

/-- The rational `±coefficient · 10 ^ exponent`. -/
def ofDecimal (d : Decimal) : Exact :=
  let c : Rat := if d.negative then -(d.coefficient : Rat) else d.coefficient
  .value (if 0 ≤ d.exponent then c * (Nat.pow 10 d.exponent.toNat : Rat)
    else c / (Nat.pow 10 (-d.exponent).toNat : Rat))

end Exact

instance : Scalar Exact where
  add := Exact.add
  sub := Exact.sub
  mul := Exact.mul
  div := Exact.div
  neg := Exact.neg
  lt := Exact.lt
  isZero x := decide (x = .value 0)
  special?
    | .value _ => none
    | .undefined => some .nan
  ofSpecial _ := .undefined
  whole?
    | .value q => if q.den = 1 then some q.num else none
    | .undefined => none
  ofDecimal := Exact.ofDecimal
  text
    | .value q => toString q
    | .undefined => Special.nan.text

end FormulaGraph
