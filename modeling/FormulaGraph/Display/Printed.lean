import FormulaGraph.Display.Tree
import FormulaGraph.Failure
import FormulaGraph.Number.Places
import FormulaGraph.Text.Markup
/-!
# Printed output

What a command prints is a sequence of entries, each for one of two channels: results, and what is
said about the work. An entry is a line of markup, an empty line, a tree, a table or a panel. Names,
units and expressions are escaped; amounts have four places at most (`FormulaGraph.Number.Places`).
-/
namespace FormulaGraph

inductive Channel where
  | results
  | progress
  deriving DecidableEq, Repr

/-- A tree of labels. -/
inductive LabelTree where
  | branch (label : Text) (branches : List LabelTree)

inductive Printed where
  | line (markup : Text)
  | emptyLine
  | tree (t : LabelTree)
  | table (header : List Text) (rows : List (List Text))
  | panel (title body : Text)

/-- Something printed, and where. -/
structure Entry where
  channel : Channel
  printed : Printed

/-- A unit that is no text cannot be shown. -/
structure UnitError where
  kind : String
  deriving DecidableEq, Repr

def UnitError.message (e : UnitError) : Text :=
  s!"expected string or bytes-like object, got '{e.kind}'"

namespace Display

def absent : Text := "[dim]n/a[/dim]"

/-- A value with its unit. -/
def amount (value : Option Float) (unit : Json Float) : Except UnitError Text :=
  match value with
  | none => .ok absent
  | some v =>
    if !unit.isGiven then .ok (Places.text v)
    else match unit with
      | .text u => .ok (Places.text v ++ " " ++ Text.escapeMarkup u)
      | u => .error ⟨u.kindName⟩

def style : NodeKind → String
  | .factor => "blue"
  | .formula => "green"

/-- The label of a node: its name, its value, and the expression of a formula. -/
def label (n : Node Float) : Except UnitError Text := do
  let value ← amount n.computed n.unit
  let color := style n.kind
  let named := s!"[bold {color}]" ++ Text.escapeMarkup n.name ++ s!"[/bold {color}] = " ++ value
  match n.expression?.filter (!·.isEmpty) with
  | none => pure named
  | some e => pure (named ++ "  [dim](" ++ Text.escapeMarkup e ++ ")[/dim]")

mutual

/-- The labels of a node and all below it. -/
def labels : DisplayTree Float → Except UnitError LabelTree
  | .branch n true _ =>
    .ok (.branch ("[red]" ++ Text.escapeMarkup n.name ++ " (circular reference)[/red]") [])
  | .branch n false children => do
    let top ← label n
    let below ← labelsEach children
    pure (.branch top below)

def labelsEach : List (DisplayTree Float) → Except UnitError (List LabelTree)
  | [] => .ok []
  | t :: rest => do
    let first ← labels t
    let others ← labelsEach rest
    pure (first :: others)

end

/-- A failure as a line of its own. -/
def failureLine (f : Failure) : Text := "[red]✗ " ++ Text.escapeMarkup f.text ++ "[/red]"

/-- A tree with the failure of its root, if there is one, below the label of the root. -/
def tree (t : DisplayTree Float) (failure : Option Failure) : Except UnitError Entry := do
  let top ← label t.node
  let below ← labelsEach t.children
  let failed := failure.toList.map fun f => LabelTree.branch (failureLine f) []
  pure ⟨.results, .tree (.branch top (failed ++ below))⟩

def header : List Text := ["Name", "Kind", "Expression", "Value", "Parents", "Root"]

def cells (r : NodeRow Float) : Except UnitError (List Text) := do
  let value ← amount r.value r.unit
  pure [Text.escapeMarkup r.name,
    s!"[{style r.kind}]{r.kind.text.toUpper}[/{style r.kind}]",
    Text.escapeMarkup (r.expression.getD ""),
    value,
    toString r.parents,
    if r.isRoot then "✓" else ""]

/-- The entries of a table of nodes. -/
def table (rows : List (NodeRow Float)) : Except UnitError (List Entry) := do
  if rows.isEmpty then pure [⟨.results, .line "[dim]No nodes[/dim]"⟩]
  else
    let cells ← rows.mapM cells
    pure [⟨.results, .table header cells⟩,
      ⟨.results, .line s!"\n[dim]Total: {rows.length} nodes[/dim]"⟩]

end Display

end FormulaGraph
