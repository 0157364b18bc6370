import FormulaGraph.Number.Numeral
import FormulaGraph.Text.Quoted
/-!
# Document values

A value of a document: nothing, a truth value, a whole number of any size, a real number, a text, a
list, or an object with its fields in order. An object has no field twice where it comes from a
reader (`Json.addField`): a repeated name keeps its first place and takes its last value.
-/
namespace FormulaGraph

inductive Json (α : Type) where
  | null
  | bool (b : Bool)
  | int (i : Int)
  | real (x : α)
  | text (s : Text)
  | list (items : List (Json α))
  | object (fields : List (Text × Json α))
  deriving Repr, BEq

namespace Json

variable {α : Type}

/-- The field of a name among the fields of an object. -/
def field? (name : Text) : List (Text × Json α) → Option (Json α)
  | [] => none
  | (n, v) :: rest => if n = name then some v else field? name rest

/-- Puts a field into an object. -/
def addField (name : Text) (value : Json α) : List (Text × Json α) → List (Text × Json α)
  | [] => [(name, value)]
  | (n, v) :: rest => if n = name then (n, value) :: rest else (n, v) :: addField name value rest

def get? (v : Json α) (name : Text) : Option (Json α) :=
  match v with
  | .object fields => field? name fields
  | _ => none

def text? : Json α → Option Text
  | .text s => some s
  | _ => none

def list? : Json α → Option (List (Json α))
  | .list items => some items
  | _ => none

/-- The items of a list if all of them are texts. -/
def texts? : Json α → Option (List Text)
  | .list items => items.mapM text?
  | _ => none

/-- The texts among values. -/
def textsAmong (items : List (Json α)) : List Text := items.filterMap text?

/-- The values without the first one that is the text. -/
def eraseText (t : Text) : List (Json α) → List (Json α)
  | [] => []
  | .text s :: rest => if s = t then rest else .text s :: eraseText t rest
  | v :: rest => v :: eraseText t rest

theorem textsAmong_map_text (ts : List Text) :
    textsAmong (ts.map .text : List (Json α)) = ts := by
  induction ts with
  | nil => rfl
  | cons t rest ih => simpa [textsAmong, text?] using ih

theorem texts?_map_text (ts : List Text) : (list (ts.map .text) : Json α).texts? = some ts := by
  unfold texts?
  induction ts with
  | nil => rfl
  | cons t rest ih =>
    dsimp only at ih ⊢
    rw [List.map_cons, List.mapM_cons, ih]
    rfl

theorem textsAmong_append (xs ys : List (Json α)) :
    textsAmong (xs ++ ys) = textsAmong xs ++ textsAmong ys :=
  List.filterMap_append

theorem textsAmong_eraseText (t : Text) (items : List (Json α)) :
    textsAmong (eraseText t items) = (textsAmong items).erase t := by
  induction items with
  | nil => rfl
  | cons v rest ih =>
    cases v with
    | text s =>
      by_cases h : s = t
      · subst h
        simp [eraseText, textsAmong, text?]
      · simpa [eraseText, textsAmong, text?, h, List.erase_cons, beq_iff_eq] using ih
    | _ => exact ih

/-- The text, or nothing. -/
def ofText? : Option Text → Json α
  | none => .null
  | some s => .text s

theorem text?_ofText? (t : Option Text) : (ofText? t : Json α).text? = t := by
  cases t <;> rfl

/-- What kind of value this is, as messages name it. -/
def kindName : Json α → String
  | .null => "NoneType"
  | .bool _ => "bool"
  | .int _ => "int"
  | .real _ => "float"
  | .text _ => "str"
  | .list _ => "list"
  | .object _ => "dict"

mutual

/-- How messages show a value. -/
def shown [Scalar α] : Json α → Text
  | .null => "None"
  | .bool true => "True"
  | .bool false => "False"
  | .int i => toString i
  | .real x => Scalar.text x
  | .text s => Text.quoted s
  | .list items => Text.bracketed (shownItems items)
  | .object fields => "\x7b" ++ .joined ", " (shownFields fields) ++ "\x7d"

def shownItems [Scalar α] : List (Json α) → List Text
  | [] => []
  | v :: rest => shown v :: shownItems rest

def shownFields [Scalar α] : List (Text × Json α) → List Text
  | [] => []
  | (name, v) :: rest => (Text.quoted name ++ ": " ++ shown v) :: shownFields rest

end

/-- Whether the value counts as given: not nothing, false, zero or empty. -/
def isGiven [Scalar α] : Json α → Bool
  | .null => false
  | .bool b => b
  | .int i => i ≠ 0
  | .real x => !Scalar.isZero x
  | .text s => s ≠ ""
  | .list items => !items.isEmpty
  | .object fields => !fields.isEmpty

end Json

end FormulaGraph
