/-!
# Walks that never repeat

Every walk through a graph in this library, be it evaluation, display or the search for a cycle,
goes down from node to node and stops where an id would appear twice on its path. `unvisited ids
path` counts the ids that may still be entered, and entering one makes it smaller: that is why the
walks end on every graph, with paths no longer than there are ids.
-/
namespace FormulaGraph

variable {κ : Type} [DecidableEq κ]

/-- How many of the ids are not on the path. -/
def unvisited (ids path : List κ) : Nat := (ids.filter (· ∉ path)).length

theorem unvisited_cons_lt {ids path : List κ} {id : κ} (hid : id ∈ ids) (hpath : id ∉ path) :
    unvisited ids (id :: path) < unvisited ids path := by
  have hfilter : ids.filter (· ∉ id :: path)
      = (ids.filter (· ∉ path)).filter (fun x => decide (x ≠ id)) := by
    rw [List.filter_filter]
    congr 1
    funext x
    simp
  rw [unvisited, unvisited, hfilter]
  exact List.length_filter_lt_length_iff_exists.2 ⟨id, by simp [hid, hpath], by simp⟩

end FormulaGraph
