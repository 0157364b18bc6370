import FormulaGraph.Number.Numeral
import FormulaGraph.Expr.Tree
/-!
# Reading expressions

```
sum     := product (('+' | '-') product)*
product := unary (('*' | '/') unary)*
unary   := ('+' | '-') unary | primary
primary := NUMBER | NAME | '(' sum ')'
```

Binary operators associate to the left.

**Depth.** A token may stand inside `maxDepth` parentheses and signs together, and no operation may
have a tree higher than `maxDepth`. The first bound is what the recursion runs on: `unary` with a
budget of `b` further levels calls itself only with `b - 1`. The second is checked where a chain of
operators grows.

**Progress.** A rule returns what it read together with a rest that is shorter than its input, so a
chain ends with its tokens.
-/
namespace FormulaGraph

/-- The depth allowed to nested parentheses and signs, and to the tree of an operation. -/
def maxDepth : Nat := 100

namespace Parser

variable {α : Type} [Scalar α]

/-- A subtree with its height, and a rest that is shorter than `ts`. -/
structure Parsed (α : Type) (ts : List Token) where
  expr : Expr α
  height : Nat
  rest : List Token
  shorter : rest.length < ts.length

/-- A subtree with its height, and a rest that is no longer than `ts`. -/
structure Chain (α : Type) (ts : List Token) where
  expr : Expr α
  height : Nat
  rest : List Token
  noLonger : rest.length ≤ ts.length

/-- A grammar rule for texts that end at a fixed position. -/
abbrev Rule (α : Type) := (ts : List Token) → Except ParseError (Parsed α ts)

/-- Extends a left operand by further operators from `ops` and their operands. -/
def chain (ops : List Operator) (operand : Rule α) (left : Expr α) (height : Nat)
    (ts : List Token) : Except ParseError (Chain α ts) :=
  match ts with
  | ⟨.operator op, position⟩ :: rest =>
    if op ∈ ops then
      match operand rest with
      | .error e => .error e
      | .ok right =>
        let higher := max height right.height + 1
        if maxDepth < higher then .error ⟨.tooDeep, position⟩
        else
          have := right.shorter
          match chain ops operand (.binary op left right.expr) higher right.rest with
          | .error e => .error e
          | .ok c => .ok ⟨c.expr, c.height, c.rest, by
              have := c.noLonger
              simp only [List.length_cons]; omega⟩
    else .ok ⟨left, height, ⟨.operator op, position⟩ :: rest, Nat.le_refl _⟩
  | ts => .ok ⟨left, height, ts, Nat.le_refl _⟩
termination_by ts.length

/-- One operand and a chain of operators behind it. -/
def operation (ops : List Operator) (operand : Rule α) : Rule α := fun ts =>
  match operand ts with
  | .error e => .error e
  | .ok first =>
    match chain ops operand first.expr first.height first.rest with
    | .error e => .error e
    | .ok c => .ok ⟨c.expr, c.height, c.rest, Nat.lt_of_le_of_lt c.noLonger first.shorter⟩

def product (unary : Rule α) : Rule α := operation [.mul, .div] unary

def sum (unary : Rule α) : Rule α := operation [.add, .sub] (product unary)

/-- The sign that an operator is in front of an operand. -/
def sign? : Operator → Option Sign
  | .add => some .plus
  | .sub => some .minus
  | .mul | .div => none

/-- A number, a name, or the refusal of a token that opens nothing. -/
def leaf (token : Token) (rest : List Token) : Except ParseError (Parsed α (token :: rest)) :=
  match token.lexeme with
  | .number run =>
    let whole := Text.charsWhile Char.isDigit run.points
    let fraction := Text.charsWhile Char.isDigit (run.points.drop (whole.length + 1))
    .ok ⟨.num (Scalar.ofDecimal (Numeral.ofDigits false whole fraction 0)), 1, rest,
      Nat.lt_succ_self _⟩
  | .name run => .ok ⟨.var run, 1, rest, Nat.lt_succ_self _⟩
  | _ => .error ⟨.unexpectedToken token.text, token.position⟩

/-- Closes a parenthesis around what was read. -/
def closed (stop : Nat) {ts : List Token} (inner : Parsed α ts) (token : Token) :
    Except ParseError (Parsed α (token :: ts)) :=
  match h : inner.rest with
  | ⟨.closeParen, _⟩ :: after => .ok ⟨inner.expr, inner.height, after, by
      have := inner.shorter
      simp only [h, List.length_cons] at this ⊢; omega⟩
  | other :: _ => .error ⟨.missingClose, other.position⟩
  | [] => .error ⟨.missingClose, stop⟩

/-- The rule for operands, with `budget` further levels of signs and parentheses. -/
def unary (stop : Nat) : (budget : Nat) → Rule α
  | _, [] => .error ⟨.unexpectedEnd, stop⟩
  | 0, token :: rest =>
    match token.lexeme with
    | .openParen => .error ⟨.tooDeep, token.position⟩
    | .operator op =>
      if (sign? op).isSome then .error ⟨.tooDeep, token.position⟩ else leaf token rest
    | _ => leaf token rest
  | budget + 1, token :: rest =>
    match token.lexeme with
    | .openParen =>
      match sum (unary stop budget) rest with
      | .error e => .error e
      | .ok inner => closed stop inner token
    | .operator op =>
      match sign? op with
      | none => leaf token rest
      | some s =>
        match unary stop budget rest with
        | .error e => .error e
        | .ok operand => .ok ⟨.unary s operand.expr, operand.height + 1, operand.rest,
            Nat.lt_succ_of_lt operand.shorter⟩
    | _ => leaf token rest

/-- The tree of a whole token sequence of a text that ends at `stop`. -/
def whole (stop : Nat) (ts : List Token) : Except ParseError (Expr α) :=
  if ts = [] then .error ⟨.empty, stop⟩
  else
    match sum (unary stop maxDepth) ts with
    | .error e => .error e
    | .ok parsed =>
      match parsed.rest with
      | [] => .ok parsed.expr
      | ⟨.closeParen, position⟩ :: _ => .error ⟨.unmatchedClose, position⟩
      | token :: _ => .error ⟨.unexpectedToken token.text, token.position⟩

end Parser

/-- Reads an expression. -/
def parseExpression {α : Type} [Scalar α] (source : Text) : Except ParseError (Expr α) :=
  match tokenize source with
  | .error e => .error e
  | .ok ts => Parser.whole source.length ts

/-- Why the text of a formula has no value. -/
inductive ExpressionError where
  | malformed (e : ParseError)
  | failed (e : EvalError)
  deriving DecidableEq, Repr

def ExpressionError.message : ExpressionError → Text
  | .malformed e => e.message
  | .failed e => e.message

/-- Reads an expression and evaluates it. -/
def evaluateExpression {α : Type} [Scalar α] (source : Text) (ctx : Context α) :
    Except ExpressionError α :=
  match parseExpression source with
  | .error e => .error (.malformed e)
  | .ok (expr : Expr α) =>
    match expr.evaluate ctx with
    | .error e => .error (.failed e)
    | .ok v => .ok v

end FormulaGraph
