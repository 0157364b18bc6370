import FormulaGraph.Links.Order
import FormulaGraph.Links.Path
/-!
# Finding a cycle

A depth-first search from each key in turn. A node that was searched to the end without finding a
cycle is done and is not entered again; a node that is met while it is on the path closes a cycle,
which is the path from its first visit on with the node once more at the end.
-/
namespace FormulaGraph.Links

variable {κ : Type} [DecidableEq κ]

/-- The part of a path, given from its end to its start, from `n` on, and `n` again. -/
def closeCycle (path : List κ) (n : κ) : List κ := path.reverse.dropWhile (· ≠ n) ++ [n]

/-- Searches below `n`; gives the nodes that are done, or the cycle that was found. -/
def search (g : Children κ) (path done : List κ) (n : κ) : Except (List κ) (List κ) :=
  if _hpath : n ∈ path then .error (closeCycle path n)
  else if n ∈ done then .ok done
  else
    match _hget : g.get? n with
    | none => .ok (n :: done)
    | some kids =>
      match kids.foldlM (fun done kid => search g (n :: path) done kid) done with
      | .error cycle => .error cycle
      | .ok done => .ok (n :: done)
termination_by unvisited g.keys path
decreasing_by exact unvisited_cons_lt (OrderedMap.mem_keys_of_get? _hget) _hpath

/-- A cycle as a path that starts and ends with the same node, if there is one. -/
def findCycle (g : Children κ) : Option (List κ) :=
  match g.keys.foldlM (fun done n => search g [] done n) [] with
  | .error cycle => some cycle
  | .ok _ => none

/-! ## Optional nodes

A search asks for one child after the other until it is told that there is none. So a child that is
itself `none` ends the list it stands in, and those behind it are not seen.
-/

/-- The children of each key before the first that is `none`. -/
def untilNone (g : Children (Option κ)) : Children (Option κ) :=
  g.mapValues fun _ kids => kids.takeWhile Option.isSome

/-- A cycle in a graph that may have `none` as a node, if one is found. -/
def findOptionalCycle (g : Children (Option κ)) : Option (List (Option κ)) :=
  findCycle (untilNone g)

end FormulaGraph.Links
