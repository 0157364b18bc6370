import FormulaGraph.Json.Value
/-!
# Nodes

A node is a factor, which holds a value that the user sets, or a formula, which has an expression
over the names of its children. Links are lists of ids in both directions; the value that was
computed last stays with the node.

**Children.** A list of children is kept as it was given (`listed`). An entry that is no text names
no node; it is shown and saved with the others and counts for nothing, so all that is computed goes
by `children`, the ids among the entries.

**Annotations.** The description and the unit of a node are values that the library carries along
and never computes with. A valid record has a text or nothing there (`FormulaGraph.Node.Record`).
-/
namespace FormulaGraph

/-- What makes a node a factor or a formula. -/
inductive Body (α : Type) where
  | factor (value : α)
  | formula (expression : Option Text)
  deriving Repr

/-- A factor or formula with its links, its last computed value and its annotations. -/
structure Node (α : Type) where
  id : Text
  name : Text
  body : Body α
  listed : List (Json α)
  parents : List Text
  computed : Option α
  description : Json α
  unit : Json α
  deriving Repr

/-- The two kinds of nodes. -/
inductive NodeKind where
  | factor | formula
  deriving DecidableEq, Repr

def NodeKind.text : NodeKind → String
  | .factor => "factor"
  | .formula => "formula"

namespace Node

variable {α : Type}

def kind (n : Node α) : NodeKind :=
  match n.body with
  | .factor _ => .factor
  | .formula _ => .formula

def isFactor (n : Node α) : Bool := n.kind == .factor

def isFormula (n : Node α) : Bool := n.kind == .formula

/-- The expression of a formula that has one. -/
def expression? (n : Node α) : Option Text :=
  match n.body with
  | .factor _ => none
  | .formula e => e

/-- The value of a factor, or the last value of a formula. -/
def currentValue [Scalar α] (n : Node α) : α :=
  match n.body with
  | .factor v => v
  | .formula _ => n.computed.getD Scalar.zero

/-- The last computed value, zero when there is none. -/
def cachedValue [Scalar α] (n : Node α) : α := n.computed.getD Scalar.zero

/-- The words with which children of a factor are refused. -/
def childrenRefusal (name : Text) : Text := "Factor node '" ++ name ++ "' cannot have children"

/-- The ids in the list of children. -/
def children (n : Node α) : List Text := Json.textsAmong n.listed

def addChild (n : Node α) (id : Text) : Node α := { n with listed := n.listed ++ [.text id] }

/-- Drops one mention of a child. -/
def dropChild (n : Node α) (id : Text) : Node α :=
  { n with listed := Json.eraseText id n.listed }

theorem children_addChild (n : Node α) (id : Text) :
    (n.addChild id).children = n.children ++ [id] :=
  Json.textsAmong_append n.listed [.text id]

theorem children_dropChild (n : Node α) (id : Text) :
    (n.dropChild id).children = n.children.erase id :=
  Json.textsAmong_eraseText id n.listed

def addParent (n : Node α) (id : Text) : Node α :=
  if id ∈ n.parents then n else { n with parents := n.parents ++ [id] }

/-- Drops one mention of a parent. -/
def dropParent (n : Node α) (id : Text) : Node α := { n with parents := n.parents.erase id }

end Node

end FormulaGraph
