import FormulaGraph.Number.Float
import FormulaGraph.Expr.Token
/-!
# Expression trees

The tree of an expression, its text, the names it refers to, and its value.

**Text.** A binary operation is written in parentheses with a blank on either side of the operator,
a sign directly before its operand, a literal as its shortest decimal.

**Value.** Operands are evaluated from left to right and the first failure is the failure of the
whole. A name without a value, a division by zero, and any intermediate result that is not a finite
number are failures; nothing besides the four operations and signs is ever computed.
-/
namespace FormulaGraph

inductive Sign where
  | plus | minus
  deriving DecidableEq, Repr

def Sign.symbol : Sign → Char
  | .plus => '+'
  | .minus => '-'

/-- An arithmetic expression over numbers of type `α`. -/
inductive Expr (α : Type) where
  | num (value : α)
  | var (name : Text)
  | unary (sign : Sign) (operand : Expr α)
  | binary (op : Operator) (left right : Expr α)
  deriving DecidableEq, Repr

/-- Why an expression has no value. -/
inductive EvalError where
  | unresolved (name : Text)
  | divisionByZero
  | nonFinite (value : Special)
  deriving DecidableEq, Repr

def EvalError.message : EvalError → Text
  | .unresolved name => "Unresolved variable '" ++ name ++ "'"
  | .divisionByZero => "Division by zero"
  | .nonFinite value => s!"Expression produced a non-finite value ({value.text})"

/-- The values of the names that have one. -/
abbrev Context (α : Type) := Text → Option α

namespace Context

variable {α : Type}

def empty : Context α := fun _ => none

def set (ctx : Context α) (name : Text) (value : α) : Context α :=
  fun n => if n = name then some value else ctx n

end Context

namespace Expr

variable {α : Type}

/-- The number of nodes on the longest way down; a leaf has height 1. -/
def height : Expr α → Nat
  | .num _ | .var _ => 1
  | .unary _ e => e.height + 1
  | .binary _ l r => max l.height r.height + 1

/-- The names an expression refers to, from left to right. -/
def names : Expr α → List Text
  | .num _ => []
  | .var n => [n]
  | .unary _ e => e.names
  | .binary _ l r => l.names ++ r.names

/-- The text of an expression whose literals are written by `literal`. -/
def render (literal : α → Text) : Expr α → Text
  | .num v => literal v
  | .var n => n
  | .unary s e => .singleton s.symbol ++ e.render literal
  | .binary op l r =>
    "(" ++ l.render literal ++ " " ++ .singleton op.symbol ++ " " ++ r.render literal ++ ")"

def text (e : Expr Float) : Text := e.render fun x => floatText x

variable [Scalar α]

/-- A number that may be the value of an expression. -/
def finite (x : α) : Except EvalError α :=
  match Scalar.special? x with
  | none => .ok x
  | some s => .error (.nonFinite s)

def applySign (s : Sign) (x : α) : α :=
  match s with
  | .plus => x
  | .minus => -x

def applyOperator (op : Operator) (x y : α) : Except EvalError α :=
  match op with
  | .add => .ok (x + y)
  | .sub => .ok (x - y)
  | .mul => .ok (x * y)
  | .div => if Scalar.isZero y then .error .divisionByZero else .ok (x / y)

/-- The value of an expression under the values of its names. -/
def evaluate (ctx : Context α) : Expr α → Except EvalError α
  | .num v => finite v
  | .var n =>
    match ctx n with
    | none => .error (.unresolved n)
    | some v => finite v
  | .unary s e => do
    let x ← e.evaluate ctx
    finite (applySign s x)
  | .binary op l r => do
    let x ← l.evaluate ctx
    let y ← r.evaluate ctx
    let z ← applyOperator op x y
    finite z

/-- The value depends on the names that occur in the expression alone. -/
theorem evaluate_congr {ctx ctx' : Context α} {e : Expr α}
    (h : ∀ n ∈ e.names, ctx n = ctx' n) : e.evaluate ctx = e.evaluate ctx' := by
  induction e with
  | num v => rfl
  | var n =>
    rw [evaluate, evaluate, h n (by simp [names])]
  | unary s e ih => rw [evaluate, evaluate, ih h]
  | binary op l r ihl ihr =>
    have hl : l.evaluate ctx = l.evaluate ctx' := ihl fun n hn => h n (by simp [names, hn])
    have hr : r.evaluate ctx = r.evaluate ctx' := ihr fun n hn => h n (by simp [names, hn])
    rw [evaluate, evaluate, hl, hr]

end Expr

end FormulaGraph
