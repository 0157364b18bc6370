import FormulaGraph.Links.Path
import FormulaGraph.Registry.Basic
/-!
# Display trees and rows

A display tree shows a node with its existing children, their children, and so on, in order. A node
that is met again on its own path is shown once more, marked as repeated and without children. A row
sums up one node for a table.
-/
namespace FormulaGraph

/-- A node as it is shown, with the trees of its children. -/
inductive DisplayTree (α : Type) where
  | branch (node : Node α) (repeated : Bool) (children : List (DisplayTree α))

namespace DisplayTree

variable {α : Type}

def node : DisplayTree α → Node α
  | .branch n _ _ => n

/-- Whether the node already occurs on the path above. -/
def repeated : DisplayTree α → Bool
  | .branch _ r _ => r

def children : DisplayTree α → List (DisplayTree α)
  | .branch _ _ cs => cs

end DisplayTree

/-- One node in a table. -/
structure NodeRow (α : Type) where
  name : Text
  kind : NodeKind
  expression : Option Text
  value : Option α
  unit : Json α
  parents : Nat
  isRoot : Bool

namespace Registry

variable {α : Type}

/-- The tree below a node that is reached by way of `path`. -/
def displayAlong (r : Registry α) (path : List Text) (id : Text) : Option (DisplayTree α) :=
  match _hget : r.nodes.get? id with
  | none => none
  | some n =>
    if _hpath : id ∈ path then some (.branch n true [])
    else some <| .branch n false <|
      n.children.filterMap fun child => displayAlong r (id :: path) child
termination_by unvisited r.nodes.keys path
decreasing_by exact unvisited_cons_lt (OrderedMap.mem_keys_of_get? _hget) _hpath

/-- The tree below a node. -/
def display (r : Registry α) (id : Text) : Option (DisplayTree α) := r.displayAlong [] id

def row (r : Registry α) (n : Node α) : NodeRow α :=
  { name := n.name, kind := n.kind, expression := n.expression?, value := n.computed,
    unit := n.unit, parents := n.parents.length, isRoot := n.id ∈ r.roots }

/-- The rows of all nodes. -/
def rows (r : Registry α) : List (NodeRow α) := r.list.map r.row

end Registry

end FormulaGraph
