import FormulaGraph.Node.Record
import FormulaGraph.Text.Quoted
/-!
# Values given from outside

What a caller gives for a field is a document value. `number` takes it as the value of a factor,
`entries` as a list of children; a value of another kind is refused by an `ArgumentError`.

A new node is checked like a record (`FormulaGraph.Node.Record`): its factor value is also its
computed value, and the children of a new formula are taken each once.
-/
namespace FormulaGraph

/-- Why a given value cannot be used. -/
inductive ArgumentError where
  | unreadableNumber (text : Text)
  | notANumber (kind : String)
  | numberTooLarge
  | noItems (kind : String)
  | nestedItem (kind : String)
  deriving DecidableEq, Repr

def ArgumentError.message : ArgumentError → Text
  | .unreadableNumber text => "could not convert string to float: " ++ Text.quoted text
  | .notANumber kind => s!"float() argument must be a string or a real number, not '{kind}'"
  | .numberTooLarge => "int too large to convert to float"
  | .noItems kind => s!"'{kind}' object is not iterable"
  | .nestedItem kind => s!"unhashable type: '{kind}'"

namespace Json

variable {α : Type}

/-- The items that a given list of children consists of; a text stands for its code points, an
object for its names. -/
def childItems : Json α → Except ArgumentError (List (Json α))
  | .list items => .ok items
  | .object fields => .ok (fields.map fun f => .text f.1)
  | .text t => .ok (t.points.map fun p => .text (.singleton p))
  | v => .error (.noItems v.kindName)

/-- Refuses items that are lists or objects themselves. -/
def checkItems : List (Json α) → Except ArgumentError Unit
  | [] => .ok ()
  | .list _ :: _ => .error (.nestedItem "list")
  | .object _ :: _ => .error (.nestedItem "dict")
  | _ :: rest => checkItems rest

variable [Scalar α]

/-- The number a value stands for. -/
def number : Json α → Except ArgumentError α
  | .real x => .ok x
  | .int i =>
    let x : α := Scalar.ofInt i
    if Scalar.isFinite x then .ok x else .error .numberTooLarge
  | .bool b => .ok (if b then Scalar.one else Scalar.zero)
  | .text s =>
    match Numeral.given? s with
    | some n => .ok n.value
    | none => .error (.unreadableNumber s)
  | v => .error (.notANumber v.kindName)

/-- The whole number that a value is; a truth value is 0 or 1. -/
def whole? : Json α → Option Int
  | .bool b => some (if b then 1 else 0)
  | .int i => some i
  | .real x => Scalar.whole? x
  | _ => none

/-- Whether two items count as one: equal texts, equal numbers, or both nothing. -/
def sameItem : Json α → Json α → Bool
  | .text s, .text t => s == t
  | .null, .null => true
  | .real x, .real y => Scalar.same x y
  | v, w =>
    match v.whole?, w.whole? with
    | some i, some j => i == j
    | _, _ => false

/-- The items without later repetitions. -/
def distinct (items : List (Json α)) : List (Json α) :=
  items.foldl (fun kept item => if kept.any (sameItem item) then kept else kept ++ [item]) []

/-- The entries of a given list of children, each once. -/
def entries (v : Json α) : Except ArgumentError (List (Json α)) := do
  let items ← v.childItems
  checkItems items
  pure (distinct items)

end Json

namespace Node

variable {α : Type} [Scalar α]

/-- The given description and unit of a draft. -/
def annotations (description unit : Option (Json α)) : List (Field × Json α) :=
  (description.toList.map fun v => (.description, v)) ++ (unit.toList.map fun v => (.unit, v))

/-- A new factor. -/
def factorDraft (id : Text) (name value : Json α) (description unit : Option (Json α)) :
    Except RecordError (Node α) :=
  (Source.ofDraft ([(.id, .text id), (.name, name), (.value, value), (.computed, value)] ++
    annotations description unit)).node .factor

/-- Why there is no new formula. -/
inductive DraftError where
  | unusable (why : ArgumentError)
  | invalid (why : RecordError)
  deriving DecidableEq, Repr

/-- A new formula. -/
def formulaDraft (id : Text) (name expression children : Json α)
    (description unit : Option (Json α)) : Except DraftError (Node α) :=
  match children.entries with
  | .error e => .error (.unusable e)
  | .ok entries =>
    ((Source.ofDraft ([(.id, .text id), (.name, name), (.expression, expression),
      (.children, .list entries)] ++ annotations description unit)).node .formula).mapError .invalid

end Node

end FormulaGraph
