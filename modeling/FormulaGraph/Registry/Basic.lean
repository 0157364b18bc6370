import FormulaGraph.Links.Graph
/-!
# The registry

A registry holds nodes under their keys, in order, and the roots in the order in which they are
shown. A key is normally the id of its node, and a root normally exists, but a document may say
otherwise, and nothing here relies on it.
-/
namespace FormulaGraph

structure Registry (α : Type) where
  nodes : OrderedMap Text (Node α)
  roots : List Text

namespace Registry

variable {α : Type}

def empty : Registry α := ⟨.empty, []⟩

def node? (r : Registry α) (id : Text) : Option (Node α) := r.nodes.get? id

/-- All nodes in order. -/
def list (r : Registry α) : List (Node α) := r.nodes.values

/-- The roots that exist. -/
def listRoots (r : Registry α) : List (Node α) := r.roots.filterMap r.node?

/-- The nodes of a name; several nodes may share one. -/
def named (r : Registry α) (name : Text) : List (Node α) := r.list.filter fun n => n.name = name

/-- Changes the node under a key, if there is one. -/
def modify (r : Registry α) (id : Text) (f : Node α → Node α) : Registry α :=
  { r with nodes := r.nodes.modify id f }

/-- Why a name does not stand for one node. -/
structure LookupError where
  name : Text
  matching : Nat
  deriving DecidableEq, Repr

def LookupError.message (e : LookupError) : Text :=
  if e.matching = 0 then "No node named '" ++ e.name ++ "'"
  else "Name '" ++ e.name ++ s!"' is ambiguous ({e.matching} nodes)"

/-- The only node of a name. -/
def resolve (r : Registry α) (name : Text) : Except LookupError (Node α) :=
  match r.named name with
  | [n] => .ok n
  | ns => .error ⟨name, ns.length⟩

end Registry

end FormulaGraph
