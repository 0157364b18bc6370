import FormulaGraph.Number.Scalar
import FormulaGraph.Text.Basic
/-!
# Configuration values

A value of a configuration file: a text, a whole or real number, a truth value, a moment in time, an
array, or a table with its keys in order. Of a moment only its form matters here.
-/
namespace FormulaGraph

namespace Toml

/-- The characters of which a key may consist without quotes. -/
def isBareChar (c : Char) : Bool := c.isAlphanum || c == '-' || c == '_'

/-- The forms in which a moment is written. -/
inductive Moment where
  | dateTime
  | date
  | time
  deriving DecidableEq, Repr

inductive Value (α : Type) where
  | text (s : Text)
  | int (i : Int)
  | real (x : α)
  | bool (b : Bool)
  | moment (m : Moment)
  | array (items : List (Value α))
  | table (fields : List (Text × Value α))
  deriving Repr

/-- The fields of a table, no key twice. -/
abbrev Table (α : Type) := List (Text × Value α)

namespace Value

variable {α : Type}

/-- The value under a key. -/
def field? (key : Text) : Table α → Option (Value α)
  | [] => none
  | (k, v) :: rest => if k = key then some v else field? key rest

/-- Puts a value under a key; a key that is there keeps its place. -/
def setField (key : Text) (value : Value α) : Table α → Table α
  | [] => [(key, value)]
  | (k, v) :: rest => if k = key then (k, value) :: rest else (k, v) :: setField key value rest

/-- What kind of value this is, as messages name it. -/
def kindName : Value α → String
  | .text _ => "str"
  | .int _ => "int"
  | .real _ => "float"
  | .bool _ => "bool"
  | .moment .dateTime => "datetime.datetime"
  | .moment .date => "datetime.date"
  | .moment .time => "datetime.time"
  | .array _ => "list"
  | .table _ => "dict"

/-- Whether the value counts as given: not false, zero or empty. -/
def isGiven [Scalar α] : Value α → Bool
  | .text s => s ≠ ""
  | .int i => i ≠ 0
  | .real x => !Scalar.isZero x
  | .bool b => b
  | .moment _ => true
  | .array items => !items.isEmpty
  | .table fields => !fields.isEmpty

end Value

end Toml

end FormulaGraph
