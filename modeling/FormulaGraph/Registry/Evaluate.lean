import FormulaGraph.Failure
import FormulaGraph.Registry.Basic
/-!
# Evaluation

A factor has its value. A formula has the value of its expression, read under the names and values
of its existing children; these are evaluated first, all of them, and the first failure among them
is the failure of the formula. A node that is met again on its own path is a cycle.

**New values.** An evaluation notes the value of every node that succeeds and reads the values of
children from these notes, or from the node where there is none. The notes are written into the
registry at the end; a node that fails keeps what it had.

**Termination.** Every step down enters a node that is not on the path (`FormulaGraph.Links.Path`).
-/
namespace FormulaGraph

/-- The value of a node, or why it has none. -/
abbrev Outcome (α : Type) := Except Failure α

/-- Outcomes by the id of the node, in the order in which the nodes were first evaluated. -/
abbrev Evaluations (α : Type) := OrderedMap Text (Outcome α)

namespace Registry

variable {α : Type}

/-- The failures among outcomes. -/
def failures (evaluations : Evaluations α) : List (Text × Failure) :=
  evaluations.entries.filterMap fun
    | (id, .error f) => some (id, f)
    | (_, .ok _) => none

/-- Names that several existing nodes among `children` share, in increasing order. -/
def sharedNames (nodes : OrderedMap Text (Node α)) (children : List Text) : List Text :=
  let names := children.eraseDups.filterMap fun c => (nodes.get? c).map (·.name)
  Text.sortedUnique (names.filter fun n => 1 < names.count n)

/-- Values found during an evaluation, the latest first. -/
abbrev Notes (α : Type) := List (Text × α)

/-- The state of a formula while its children are evaluated one by one. -/
structure Gathered (α : Type) where
  failure : Option Failure
  context : Context α
  notes : Notes α

section

variable [Scalar α]

/-- Evaluates one child by `step` and adds its value to the context. -/
def gather (nodes : OrderedMap Text (Node α))
    (step : Text → Notes α → Outcome α × Notes α) (g : Gathered α) (child : Text) :
    Gathered α :=
  match nodes.get? child with
  | none => g
  | some n =>
    let (outcome, notes) := step child g.notes
    let failure := match outcome with
      | .ok _ => none
      | .error f => some f
    { failure := g.failure.or failure
      context := g.context.set n.name ((notes.lookup child).getD n.cachedValue)
      notes }

/-- Evaluates the node under `id`, reached by way of `path`. -/
def evaluateAlong (nodes : OrderedMap Text (Node α)) (path : List Text) (id : Text)
    (notes : Notes α) : Outcome α × Notes α :=
  match _hget : nodes.get? id with
  | none => (.error (.nodeNotFound id), notes)
  | some n =>
    if _hpath : id ∈ path then (.error (.circular n.name), notes)
    else
      match n.body with
      | .factor v => (.ok v, (id, v) :: notes)
      | .formula expression =>
        match expression.filter (!·.isEmpty) with
        | none => (.error (.noFormula n.name), notes)
        | some source =>
          match sharedNames nodes n.children with
          | [] =>
            let step child notes := evaluateAlong nodes (id :: path) child notes
            let g := n.children.foldl (gather nodes step) ⟨none, .empty, notes⟩
            match g.failure with
            | some f => (.error f, g.notes)
            | none =>
              match evaluateExpression source g.context with
              | .ok v => (.ok v, (id, v) :: g.notes)
              | .error e => (.error (.expression e), g.notes)
          | shared => (.error (.ambiguousChildren n.name shared), notes)
termination_by unvisited nodes.keys path
decreasing_by exact unvisited_cons_lt (OrderedMap.mem_keys_of_get? _hget) _hpath

/-- Writes noted values into their nodes. -/
def write (r : Registry α) (notes : Notes α) : Registry α :=
  { r with
    nodes := r.nodes.mapValues fun id n =>
      match notes.lookup id with
      | some v => { n with computed := some v }
      | none => n }

/-- Evaluates a node as if reached by way of the ids in `path`. -/
def evaluateVisiting (r : Registry α) (path : List Text) (id : Text) :
    Outcome α × Registry α :=
  let (outcome, notes) := evaluateAlong r.nodes path id []
  (outcome, r.write notes)

/-- Evaluates a node and all that it depends on. -/
def evaluate (r : Registry α) (id : Text) : Outcome α × Registry α := r.evaluateVisiting [] id

/-- Evaluates nodes one after the other, each on its own. -/
def evaluateEach (r : Registry α) (ids : List Text) : Evaluations α × Registry α :=
  ids.foldl (fun (evaluations, r) id =>
    let (outcome, r) := r.evaluate id
    (evaluations.insert id outcome, r)) (.empty, r)

/-- Evaluates every root. -/
def evaluateRoots (r : Registry α) : Evaluations α × Registry α := r.evaluateEach r.roots

/-- The nodes that depend on a node: children first, or in increasing order when they form a cycle.
-/
def dependents (r : Registry α) (id : Text) : List Text :=
  let g := Links.ofNodes r.nodes
  let found := Links.ancestors g id
  match Links.childrenFirst (Links.restrict g found) with
  | .ok order => order
  | .error _ => Text.sorted found

/-- Evaluates every node that depends on a node. -/
def evaluateDependents (r : Registry α) (id : Text) : Evaluations α × Registry α :=
  r.evaluateEach (r.dependents id)

end

end Registry

end FormulaGraph
