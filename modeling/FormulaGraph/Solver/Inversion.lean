import FormulaGraph.Expr.Tree
/-!
# Solving in closed form

When an expression is one operation with the wanted name alone on one side, the other side is
evaluated and the operation inverted. The name on the left is tried before the name on the right; a
side that has no value, or that would be divided by when it is zero, is passed over.
-/
namespace FormulaGraph.Expr

variable {α : Type}

/-- Whether an expression is nothing but the name. -/
def isVar (name : Text) : Expr α → Bool
  | .var n => n == name
  | _ => false

variable [Scalar α]

/-- The quotient, unless the divisor is zero. -/
def quotient? (x y : α) : Option α := if Scalar.isZero y then none else some (x / y)

/-- The `x` for which `x op rest` is the target. -/
def invertLeft (op : Operator) (rest target : α) : Option α :=
  match op with
  | .mul => quotient? target rest
  | .add => some (target - rest)
  | .sub => some (target + rest)
  | .div => if Scalar.isZero rest then none else some (target * rest)

/-- The `x` for which `rest op x` is the target. -/
def invertRight (op : Operator) (rest target : α) : Option α :=
  match op with
  | .mul => quotient? target rest
  | .add => some (target - rest)
  | .sub => some (rest - target)
  | .div => quotient? rest target

/-- The value of `name` that gives the expression the target value; `value` evaluates the other
side. -/
def invert (name : Text) (target : α) (value : Expr α → Except EvalError α) : Expr α → Option α
  | .binary op left right =>
    let side (found : Bool) (rest : Expr α) (solve : α → Option α) : Option α :=
      if found then
        match value rest with
        | .ok v => solve v
        | .error _ => none
      else none
    (side (left.isVar name) right (invertLeft op · target)).or
      (side (right.isVar name) left (invertRight op · target))
  | _ => none

end FormulaGraph.Expr
