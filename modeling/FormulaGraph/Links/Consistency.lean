import FormulaGraph.Links.Graph
import FormulaGraph.Text.Quoted
/-!
# Consistency of a node table

A table of nodes with a list of roots is consistent when every node is stored under its own id, all
children and roots exist, factors have no children, the recorded parents of every node are exactly
the nodes that have it as a child, and no node depends on itself. `violations` reports what is not
so: first node by node what can be seen from the node alone, then the recorded parents, the roots,
and a cycle.
-/
namespace FormulaGraph.Links

/-- One way in which a node table is inconsistent. -/
inductive Violation where
  | wrongId (name key id : Text)
  /-- The children that name no node, as messages show them. -/
  | missingChildren (name : Text) (shown : List Text)
  | factorWithChildren (name : Text)
  | parentsOutOfSync (name : Text) (recorded expected : List Text)
  | missingRoot (id : Text)
  | cycle (names : List Text)
  deriving DecidableEq, Repr

def Violation.message : Violation → Text
  | .wrongId name key id =>
    "Node '" ++ name ++ "' is stored under id '" ++ key ++ "' but records id '" ++ id ++ "'"
  | .missingChildren name shown =>
    "Node '" ++ name ++ "' has missing children: " ++ Text.bracketed shown
  | .factorWithChildren name => "Factor node '" ++ name ++ "' has children"
  | .parentsOutOfSync name recorded expected =>
    "Node '" ++ name ++ "' parent links out of sync: recorded " ++ Text.quotedList recorded ++
      ", expected " ++ Text.quotedList expected
  | .missingRoot id => "Root id '" ++ id ++ "' does not exist"
  | .cycle names => "Graph contains a cycle: " ++ .joined " -> " names

variable {α : Type} [Scalar α]

/-- Whether an entry in a list of children names no node. -/
def isMissing (nodes : OrderedMap Text (Node α)) : Json α → Bool
  | .text id => !nodes.contains id
  | _ => true

/-- What is wrong with a node by itself. -/
def nodeViolations (nodes : OrderedMap Text (Node α)) (key : Text) (n : Node α) :
    List Violation :=
  let missing := n.listed.filter (isMissing nodes)
  (if n.id ≠ key then [.wrongId n.name key n.id] else []) ++
    (if missing.isEmpty then [] else [.missingChildren n.name (missing.map Json.shown)]) ++
    (if n.isFactor ∧ !n.listed.isEmpty then [.factorWithChildren n.name] else [])

/-- Whether the recorded parents of a node are the nodes that list it. -/
def parentViolations (g : Children Text) (key : Text) (n : Node α) : List Violation :=
  let recorded := Text.sortedUnique n.parents
  let expected := Text.sortedUnique (parentsOf g key)
  if recorded ≠ expected then [.parentsOutOfSync n.name recorded expected] else []

/-- Everything that makes a table and its roots inconsistent. -/
def violations (nodes : OrderedMap Text (Node α)) (roots : List Text) : List Violation :=
  let g := ofNodes nodes
  let missingRoots := roots.filter fun r => !nodes.contains r
  let cycle := match findCycle g with
    | none => []
    | some ids => [.cycle (ids.filterMap fun id => (nodes.get? id).map (·.name))]
  nodes.entries.flatMap (fun e => nodeViolations nodes e.1 e.2) ++
    nodes.entries.flatMap (fun e => parentViolations g e.1 e.2) ++
    missingRoots.map .missingRoot ++ cycle

end FormulaGraph.Links
