import FormulaGraph.Number.Shortest
/-!
# Doubles as scalars

At `Float` the definitions of the library run. The four operations, the sign and the comparisons
are those of the machine; taking a double apart, rounding a decimal and writing a text go by bit
patterns (`FormulaGraph.Number.Binary64`, `FormulaGraph.Number.Shortest`).
-/
namespace FormulaGraph

instance : Scalar Float where
  lt x y := x < y
  isZero x := x == 0
  special? x :=
    match Binary64.ofFloat x with
    | .finite .. => none
    | .special s => some s
  ofSpecial
    | .infinity => Binary64.floatOfBits Binary64.infinityBits
    | .negInfinity => Binary64.floatOfBits (Nat.pow 2 63 + Binary64.infinityBits)
    | .nan => Binary64.floatOfBits (Binary64.infinityBits + Nat.pow 2 51)
  whole? x := (Binary64.ofFloat x).whole?
  ofDecimal d := Binary64.floatOfBits (Binary64.bitsOfDecimal d)
  text := floatText

end FormulaGraph
