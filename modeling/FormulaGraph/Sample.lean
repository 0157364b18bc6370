import FormulaGraph.Registry.Edit
/-!
# The sample registry

Two priced orders and their grand total. The price and the tax rate are shared by both orders, so a
new value of either changes both totals and the grand total.
-/
namespace FormulaGraph.Registry

variable {α : Type} [Scalar α]

/-- How many nodes the sample has. -/
def sampleSize : Nat := 11

/-- The registry of the sample; node number `n` gets the id `ids n`. -/
def sample (ids : Nat → Text) : Registry α :=
  let factor (n : Nat) (name : Text) (value : α) (description unit : Text) (r : Registry α) :=
    r.createFactor (ids n) name value (some description) (some unit)
  let formula (n : Nat) (name expression : Text) (children : List Nat) (description : Text)
      (r : Registry α) :=
    r.createFormula (ids n) name expression (children.map ids) (some description) (some "$")
  let r : Registry α := empty
  let r := factor 0 "price" (Scalar.ofInt 100) "Unit price" "$" r
  let r := factor 1 "quantity1" (Scalar.ofInt 5) "Quantity for order 1" "units" r
  let r := factor 2 "quantity2" (Scalar.ofInt 3) "Quantity for order 2" "units" r
  let r := factor 3 "taxRate" (Scalar.fraction 15 2) "Tax rate" "ratio" r
  let r := formula 4 "subtotal1" "price * quantity1" [0, 1] "Subtotal for order 1" r
  let r := formula 5 "tax1" "subtotal1 * taxRate" [4, 3] "Tax for order 1" r
  let r := formula 6 "total1" "subtotal1 + tax1" [4, 5] "Final total for order 1" r
  let r := formula 7 "subtotal2" "price * quantity2" [0, 2] "Subtotal for order 2" r
  let r := formula 8 "tax2" "subtotal2 * taxRate" [7, 3] "Tax for order 2" r
  let r := formula 9 "total2" "subtotal2 + tax2" [7, 8] "Final total for order 2" r
  let r := formula 10 "grandTotal" "total1 + total2" [6, 9] "Combined total for both orders" r
  { r with roots := [6, 9, 10].map ids }

end FormulaGraph.Registry
