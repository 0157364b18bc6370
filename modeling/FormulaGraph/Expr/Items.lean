import FormulaGraph.Expr.Parser
import FormulaGraph.Json.Value
/-!
# Expressions that are no texts

A formula may have been given any document value for its expression
(`FormulaGraph.Registry.Astray`). Where that is neither a text nor nothing it has no value. It is
still read, and the reading decides how the evaluation ends (`Halt`): with a failure, as for a
malformed text, or with an exception.

**Lists** are read item by item as a text is read character by character. Every test of an item may
itself be the end, when the item is no text or when it cannot be looked up in a table. A number or a
name is a list of items then. The reader stops at the first number it needs, since a list is
converted to no number, and where it needs none the first name is looked up in vain.
-/
namespace FormulaGraph

/-- A value is not of a type that allows what is done with it. -/
inductive TypeFault where
  /-- A list or an object is looked up in a table. -/
  | unhashable (kind : String)
  | noLength (kind : String)
  /-- An object has no first item. -/
  | noFirstItem
  | noMethod (kind method : String)
  /-- A list of items is converted to a number. -/
  | listAsNumber
  /-- Two values are in no order. -/
  | notOrdered (left right : String)
  deriving DecidableEq, Repr

def TypeFault.message : TypeFault → Text
  | .unhashable kind => s!"unhashable type: '{kind}'"
  | .noLength kind => s!"object of type '{kind}' has no len()"
  | .noFirstItem => "0"
  | .noMethod kind method => s!"'{kind}' object has no attribute '{method}'"
  | .listAsNumber => "float() argument must be a string or a real number, not 'list'"
  | .notOrdered left right => s!"'<' not supported between instances of '{left}' and '{right}'"

namespace Json

variable {α : Type}

/-- Looks a value up in a table in which it is not. -/
def lookUp : Json α → Except TypeFault Unit
  | .list _ => .error (.unhashable "list")
  | .object _ => .error (.unhashable "dict")
  | _ => .ok ()

/-- The only character of a text. -/
def char? : Json α → Option Char
  | .text ⟨[p]⟩ => p.char?
  | _ => none

end Json

namespace Items

variable {α : Type}

/-- How the evaluation of an expression that is no text ends. -/
inductive Halt where
  | malformed (e : ParseError)
  | astray (why : TypeFault)
  deriving DecidableEq, Repr

/-! ## Tests of items -/

/-- Whether a text is not empty and has a property in all of its characters. -/
def consists (p : Char → Bool) (t : Text) : Bool := !t.isEmpty && t.points.all (·.holds p)

def isNumberItem (v : Json α) : Except Halt Bool :=
  match v.lookUp with
  | .error e => .error (.astray e)
  | .ok () => .ok (v.char?.any Token.isNumberChar)

def isNameItem (v : Json α) : Except Halt Bool :=
  match v.lookUp, v with
  | .error e, _ => .error (.astray e)
  | .ok (), .text t =>
    .ok (t == "_" || v.char?.any Char.isDigit || consists Char.isAlpha t)
  | .ok (), v => .error (.astray (.noMethod v.kindName "isascii"))

/-- Items at the front of a list, and the others. -/
structure Run (α : Type) (items : List (Json α)) where
  taken : List (Json α)
  rest : List (Json α)
  noLonger : rest.length ≤ items.length

/-- The items at the front that pass a test. -/
def run (test : Json α → Except Halt Bool) :
    (items : List (Json α)) → Except Halt (Run α items)
  | [] => .ok ⟨[], [], Nat.le_refl _⟩
  | v :: items =>
    match test v with
    | .error e => .error e
    | .ok false => .ok ⟨[], v :: items, Nat.le_refl _⟩
    | .ok true =>
      match run test items with
      | .error e => .error e
      | .ok r => .ok ⟨v :: r.taken, r.rest, Nat.le_succ_of_le r.noLonger⟩

/-- The text of the next item if that would be part of a name. -/
def nameBehind : List (Json α) → Except Halt (Option Text)
  | [] => .ok none
  | v :: _ =>
    match isNameItem v with
    | .error e => .error e
    | .ok inName => .ok (if inName then v.text? else none)

variable [Scalar α]

/-! ## Tokens -/

/-- The tokens of items that start at `position`. -/
def scan (position : Nat) (items : List (Json α)) : Except Halt (List Token) :=
  match items with
  | [] => .ok []
  | .text t :: rest =>
    let item : Json α := .text t
    if consists Text.isBlank t then scan (position + 1) rest
    else if item.char?.any Token.isNumberChar then do
      let behind ← run isNumberItem rest
      have := behind.noLonger
      let items := item :: behind.taken
      let shown := Json.shown (.list items)
      if 1 < items.countP (·.char? == some '.') then
        throw (.malformed ⟨.malformedNumber shown, position⟩)
      let next := position + items.length
      match ← nameBehind behind.rest with
      | some t => throw (.malformed ⟨.characterAfterNumber t, next⟩)
      | none =>
        let tokens ← scan next behind.rest
        pure (⟨.number shown, position⟩ :: tokens)
    else if t == "_" || consists Char.isAlpha t then do
      let behind ← run isNameItem rest
      have := behind.noLonger
      let items := item :: behind.taken
      let tokens ← scan (position + items.length) behind.rest
      pure (⟨.name (Json.shown (.list items)), position⟩ :: tokens)
    else
      match item.char?.bind Operator.ofChar? with
      | some op => (scan (position + 1) rest).map (⟨.operator op, position⟩ :: ·)
      | none =>
        if t == "(" then (scan (position + 1) rest).map (⟨.openParen, position⟩ :: ·)
        else if t == ")" then (scan (position + 1) rest).map (⟨.closeParen, position⟩ :: ·)
        else .error (.malformed ⟨.invalidCharacter t, position⟩)
  | v :: _ => .error (.astray (.noMethod v.kindName "isspace"))
termination_by items.length
decreasing_by all_goals simp only [List.length_cons]; omega

/-! ## Reading -/

def isNumber (t : Token) : Bool :=
  match t.lexeme with
  | .number _ => true
  | _ => false

variable (α) in
/-- How the reading of tokens ends, for items that end at `stop`. Up to the first number they are
read as if they ended there. -/
def halt (stop : Nat) (tokens : List Token) : Halt :=
  match tokens.find? isNumber with
  | none =>
    match Parser.whole (α := α) stop tokens with
    | .error e => .malformed e
    | .ok _ => .astray (.unhashable "list")
  | some number =>
    match Parser.whole (α := α) number.position (tokens.takeWhile (!isNumber ·)) with
    | .error ⟨.empty, _⟩ | .error ⟨.unexpectedEnd, _⟩ => .astray .listAsNumber
    | .error e => .malformed e
    | .ok _ => .malformed ⟨.unexpectedToken number.text, number.position⟩

/-- How the evaluation of a list ends. -/
def evaluate (items : List (Json α)) : Halt :=
  match scan 0 items with
  | .error e => e
  | .ok tokens => halt α items.length tokens

end Items

/-- The value of an expression that may be anything. -/
def evaluateAny {α : Type} [Scalar α] (source : Json α) (ctx : Context α) :
    Except TypeFault (Except ExpressionError α) :=
  let halted : Items.Halt → Except TypeFault (Except ExpressionError α)
    | .malformed e => .ok (.error (.malformed e))
    | .astray why => .error why
  match source with
  | .text s => .ok (evaluateExpression s ctx)
  | .list items => halted (Items.evaluate items)
  | .object _ => .error .noFirstItem
  | v => .error (.noLength v.kindName)

end FormulaGraph
