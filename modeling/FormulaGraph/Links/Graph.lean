import FormulaGraph.Links.Cycle
import FormulaGraph.Node.Basic
import FormulaGraph.Text.Sorted
/-!
# The links between existing nodes

The graph of a node table has an edge from every node to each of its children that exists. It is
derived from the lists of children alone, so it can serve to check the recorded parents.
-/
namespace FormulaGraph.Links

variable {α : Type}

/-- The existing children of every node, each once. -/
def ofNodes (nodes : OrderedMap Text (Node α)) : Children Text :=
  nodes.mapValues fun _ n => (n.children.filter nodes.contains).eraseDups

/-- The nodes that have `id` as a child. -/
def parentsOf (g : Children Text) (id : Text) : List Text :=
  if g.contains id then g.keys.filter fun p => id ∈ childrenOf g p else []

/-- All that can be reached from `todo` by steps of `next` within `ids`, beyond what is `seen`. -/
def reach (ids : List Text) (next : Text → List Text) (todo seen : List Text) :
    List Text :=
  match todo with
  | [] => seen
  | id :: rest =>
    if _h : id ∈ ids ∧ id ∉ seen then reach ids next (next id ++ rest) (id :: seen)
    else reach ids next rest seen
termination_by (unvisited ids seen, todo.length)
decreasing_by
  · exact Prod.Lex.left _ _ (unvisited_cons_lt _h.1 _h.2)
  · exact Prod.Lex.right _ (by simp)

/-- Nothing that was seen is lost. -/
theorem mem_reach_of_seen {ids : List Text} {next : Text → List Text} (todo seen : List Text)
    {id : Text} (h : id ∈ seen) : id ∈ reach ids next todo seen := by
  fun_induction reach ids next todo seen with
  | case1 seen => exact h
  | case2 seen first rest hnew ih => exact ih (List.mem_cons_of_mem _ h)
  | case3 seen first rest hold ih => exact ih h

/-- The nodes whose value depends on `id`, directly or through others. -/
def ancestors (g : Children Text) (id : Text) : List Text :=
  reach g.keys (parentsOf g) (parentsOf g id) []

/-- The graph of some of the nodes, without the links that leave them. -/
def restrict (g : Children Text) (subset : List Text) : Children Text :=
  .ofList ((g.entries.filter fun e => e.1 ∈ subset).map fun e =>
    (e.1, e.2.filter (· ∈ subset)))

end FormulaGraph.Links
