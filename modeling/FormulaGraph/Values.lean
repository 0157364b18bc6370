import FormulaGraph.Registry.Basic
import FormulaGraph.Toml.Writer
/-!
# Exported values

The values that have been computed, by the name of the node: its kind, its value, and its unit if it
has one. Of nodes that share a name the first one with a value counts.
-/
namespace FormulaGraph

/-- What is exported of a node. -/
structure ExportedValue (α : Type) where
  kind : NodeKind
  value : α
  unit : Json α

namespace Registry

variable {α : Type}

/-- The exported values in the order of the nodes. -/
def exportedValues (r : Registry α) : OrderedMap Text (ExportedValue α) :=
  r.list.foldl (fun found n =>
    match n.computed with
    | none => found
    | some v => if found.contains n.name then found else found.insert n.name ⟨n.kind, v, n.unit⟩)
    .empty

/-- The fields of an exported value. -/
def exportedFields (v : ExportedValue α) : List (Text × Json α) :=
  let unit : List (Text × Json α) := match v.unit with
    | .null => []
    | unit => [("unit", unit)]
  ("kind", .text v.kind.text) :: ("value", .real v.value) :: unit

/-- The table of all exported values. -/
def valuesTable (r : Registry α) : List (Text × Json α) :=
  [("values", .object (r.exportedValues.entries.map fun e => (e.1, .object (exportedFields e.2))))]

/-- The contents of a file of exported values. -/
def valuesFile (r : Registry Float) : Toml.Written := Toml.written (Toml.pieces r.valuesTable)

end Registry

end FormulaGraph
