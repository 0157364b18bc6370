import FormulaGraph.Expr.Parser
import FormulaGraph.Json.Reader
import FormulaGraph.Links.Consistency
import FormulaGraph.Text.Utf8
/-!
# Failures

An operation that is refused or has no result says why by a `Failure`, a cause with the names and
ids it concerns. Every cause belongs to one `ErrorKind`, and its wording is `Failure.message`.
-/
namespace FormulaGraph

/-- The kinds of failures that callers tell apart. -/
inductive ErrorKind where
  | notFound
  | invalidExpression
  | circularDependency
  | noFormula
  | noExpression
  | parentNotFound
  | childNotFound
  | parentNotFormula
  | childNotInFormula
  | diverged
  | nanResult
  | didNotConverge
  | importFormatError
  | importInvariantError
  | invalidUpdate
  | factorChildren
  deriving DecidableEq, Repr

def ErrorKind.text : ErrorKind → String
  | .notFound => "not_found"
  | .invalidExpression => "invalid_expression"
  | .circularDependency => "circular_dependency"
  | .noFormula => "no_formula"
  | .noExpression => "no_expression"
  | .parentNotFound => "parent_not_found"
  | .childNotFound => "child_not_found"
  | .parentNotFormula => "parent_not_formula"
  | .childNotInFormula => "child_not_in_formula"
  | .diverged => "diverged"
  | .nanResult => "nan_result"
  | .didNotConverge => "did_not_converge"
  | .importFormatError => "import_format_error"
  | .importInvariantError => "import_invariant_error"
  | .invalidUpdate => "invalid_update"
  | .factorChildren => "factor_children"

/-- Why a document does not have the shape of a saved registry. -/
inductive FormatFault where
  | notAnObject
  | noNodes
  | noRoots
  | notAPair (index : Nat)
  | invalidRecord (index : Nat) (id : Text) (issues : Nat)
  /-- A record whose issue cannot be reported. -/
  | unreportable (e : Text.EncodeFault)
  deriving DecidableEq, Repr

def FormatFault.message : FormatFault → Text
  | .notAnObject => "Invalid format: document must be an object"
  | .noNodes => "Invalid format: missing nodes array"
  | .noRoots => "Invalid format: missing rootNodeIds array"
  | .notAPair index => s!"Invalid format: nodes[{index}] must be an [id, node] pair"
  | .invalidRecord index id issues =>
    s!"Invalid format: nodes[{index}] (" ++ id ++ s!"): {issues} validation error(s)"
  | .unreportable e => e.message

/-- Why an operation was refused or has no result. -/
inductive Failure where
  | nodeNotFound (id : Text)
  | notAChild (child parent : Text)
  | expression (e : ExpressionError)
  /-- A formula that is evaluated has several children of one name. -/
  | ambiguousChildren (name : Text) (names : List Text)
  /-- A formula that is evaluated has several children under one name that is no text. -/
  | ambiguousValues (name : Text) (shown : List Text)
  /-- A formula that is solved has several children of one name. -/
  | ambiguousSiblings (name : Text) (names : List Text)
  | circular (name : Text)
  | noFormula (name : Text)
  | noExpression (name : Text)
  | parentNotFound (id : Text)
  | childNotFound (id : Text)
  | parentNotFormula (name : Text)
  | notLinked (child parent : Text)
  | notMentioned (child parent : Text)
  | diverged
  | nanResult
  | didNotConverge (iterations : Int)
  | unreadable (f : Json.Fault) (text : Text) (offset : Nat)
  | badFormat (f : FormatFault)
  | inconsistent (violations : List Links.Violation)
  | unknownFields (names : List Text)
  | factorExpression (name : Text)
  | formulaValue (name : Text)
  | unsolved
  | formulaSolution (name : Text)
  | factorChildren (name : Text)
  deriving DecidableEq, Repr

namespace Failure

def kind : Failure → ErrorKind
  | .nodeNotFound _ | .notAChild .. => .notFound
  | .expression _ | .ambiguousChildren .. | .ambiguousValues .. | .ambiguousSiblings .. =>
    .invalidExpression
  | .circular _ => .circularDependency
  | .noFormula _ => .noFormula
  | .noExpression _ => .noExpression
  | .parentNotFound _ => .parentNotFound
  | .childNotFound _ => .childNotFound
  | .parentNotFormula _ => .parentNotFormula
  | .notLinked .. | .notMentioned .. => .childNotInFormula
  | .diverged => .diverged
  | .nanResult => .nanResult
  | .didNotConverge _ => .didNotConverge
  | .unreadable .. | .badFormat _ => .importFormatError
  | .inconsistent _ => .importInvariantError
  | .unknownFields _ | .factorExpression _ | .formulaValue _ | .unsolved | .formulaSolution _ =>
    .invalidUpdate
  | .factorChildren _ => .factorChildren

def message : Failure → Text
  | .nodeNotFound id => "Node '" ++ id ++ "' not found"
  | .notAChild child parent => "Node '" ++ child ++ "' is not a child of '" ++ parent ++ "'"
  | .expression e => e.message
  | .ambiguousChildren name names =>
    "Node '" ++ name ++ "' has several children named " ++ Text.quotedList names
  | .ambiguousValues name shown =>
    "Node '" ++ name ++ "' has several children named " ++ Text.bracketed shown
  | .ambiguousSiblings name names =>
    "Parent '" ++ name ++ "' has several children named " ++ Text.quotedList names
  | .circular name => "Circular dependency detected at node '" ++ name ++ "'"
  | .noFormula name => "Node '" ++ name ++ "' has no formula defined"
  | .noExpression name => "Parent '" ++ name ++ "' has no formula"
  | .parentNotFound id => "Parent node '" ++ id ++ "' not found"
  | .childNotFound id => "Child node '" ++ id ++ "' not found"
  | .parentNotFormula name => "Parent '" ++ name ++ "' must be a formula node"
  | .notLinked child parent => "'" ++ child ++ "' is not part of the formula of '" ++ parent ++ "'"
  | .notMentioned child parent =>
    "'" ++ child ++ "' does not appear in the formula of '" ++ parent ++ "'"
  | .diverged => "Numerical solution diverged"
  | .nanResult => "Formula evaluation resulted in NaN"
  | .didNotConverge n =>
    s!"Could not converge to a solution within tolerance after {n} iterations"
  | .unreadable f text offset => "Import failed: " ++ f.located text offset
  | .badFormat f => f.message
  | .inconsistent vs => .joined "; " (vs.map (·.message))
  | .unknownFields names => "Unknown field(s): " ++ Text.quotedList names
  | .factorExpression name => "Factor node '" ++ name ++ "' has no expression"
  | .formulaValue name => "Formula node '" ++ name ++ "' has no direct value"
  | .unsolved => "Cannot apply a failed solve result"
  | .formulaSolution name =>
    "Only factor nodes can take a solved value; '" ++ name ++ "' is a formula"
  | .factorChildren name => Node.childrenRefusal name

/-- The kind and the wording together. -/
def text (f : Failure) : Text := s!"{f.kind.text}: " ++ f.message

end Failure

end FormulaGraph
