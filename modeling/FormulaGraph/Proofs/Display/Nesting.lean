import FormulaGraph.Number.Exact
import FormulaGraph.Proofs.Display.Trees
import FormulaGraph.Proofs.Evaluation.Nesting
/-!
# Recursions that end

Evaluation and display go down the lists of children, which may lead back to where they came from,
by any number of ways. Both end on every registry. A nested visit is made only where the visit that
makes it is at an id that exists and that its path does not have, and this id is put on the path. So
no visit is nested deeper than there are nodes, but for one more, which is at an id of its path or
at none that exists, and makes no visits.

* `completes_displayNested`: display, visit by visit.
* `visits_end`: evaluation and display.
-/
namespace FormulaGraph.Registry

variable {α : Type}

/-- Shows one child behind those that are shown already, if it exists. -/
def showChild (visit : Visit → Option (Ended (Option (DisplayTree α)))) (outer : Visit)
    (s : Ended (List (DisplayTree α))) (child : Text) : Option (Ended (List (DisplayTree α))) := do
  let ⟨tree, within⟩ ← visit (outer.down child)
  some ⟨s.result ++ tree.toList, s.nested ++ (outer, outer.down child) :: within⟩

/-- The tree below a node, with at most `depth` visits nested in one another. -/
def displayNested (r : Registry α) : (depth : Nat) → Visit →
    Option (Ended (Option (DisplayTree α)))
  | 0, _ => none
  | depth + 1, v =>
    match r.node? v.id with
    | none => some ⟨none, []⟩
    | some n =>
      if v.id ∈ v.path then some ⟨some (.branch n true []), []⟩
      else
        (n.children.foldlM (showChild (r.displayNested depth) v) ⟨[], []⟩).map fun e =>
          ⟨some (.branch n false e.result), e.nested⟩

variable {r : Registry α} {v : Visit}

theorem completes_showChild {visit : Visit → Option (Ended (Option (DisplayTree α)))}
    {tree : Text → Option (DisplayTree α)} (hdown : ∀ c, v.Extends r.nodes (v.down c))
    (hvisit : ∀ c, Completes r.nodes (visit (v.down c)) (tree c))
    (trees : List (DisplayTree α)) (nested : List (Visit × Visit)) (c : Text)
    (h : Extending r.nodes nested) :
    Completes r.nodes (showChild visit v ⟨trees, nested⟩ c) (trees ++ (tree c).toList) := by
  obtain ⟨within, hrun, hwithin⟩ := hvisit c
  refine ⟨nested ++ (v, v.down c) :: within, ?_, h.append (hdown c) hwithin⟩
  rw [showChild, hrun]
  rfl

/-- **Display ends.** -/
theorem completes_displayNested {depth : Nat} (h : unvisited r.nodes.keys v.path < depth) :
    Completes r.nodes (r.displayNested depth v) (r.displayAlong v.path v.id) := by
  induction depth generalizing v with
  | zero => exact absurd h (Nat.not_lt_zero _)
  | succ depth ih =>
    cases hn : r.node? v.id with
    | none =>
      rw [displayNested, hn, displayAlong_of_none hn]
      exact completes_alone _ _
    | some n =>
      by_cases hpath : v.id ∈ v.path
      · simp only [displayNested, hn, if_pos hpath, displayAlong_of_mem hn hpath]
        exact completes_alone _ _
      · have hdown (c : Text) : v.Extends r.nodes (v.down c) :=
          ⟨rfl, contains_iff_node?.2 ⟨n, hn⟩, hpath⟩
        have hvisit (c : Text) :=
          ih (v := v.down c) (Nat.lt_of_lt_of_le (hdown c).unvisited_lt (Nat.le_of_lt_succ h))
        have hloop := completes_foldlM id (completes_showChild hdown hvisit) n.children []
          (extending_nil _)
        have hend := hloop.map fun trees => some (DisplayTree.branch n false trees)
        rw [id, id, ← List.flatMap_eq_foldl, ← List.filterMap_eq_flatMap_toList] at hend
        simp only [displayNested, hn, if_neg hpath, displayAlong_of_get? hn hpath]
        exact hend

/-- **Evaluation and display end.** On every registry, and along any path that they start with, they
come to their end with the results of the walks, when at most one visit more than there are nodes
may be nested in one another. Every nested visit extends the path by an id that exists and that was
not on it. -/
theorem visits_end [Scalar α] (r : Registry α) (v : Visit) {depth : Nat}
    (h : r.nodes.size < depth) :
    Completes r.nodes (r.evaluateNested depth v) (r.evaluateVisiting v.path v.id) ∧
      Completes r.nodes (r.displayNested depth v) (r.displayAlong v.path v.id) := by
  have hdepth : unvisited r.nodes.keys v.path < depth :=
    Nat.lt_of_le_of_lt (unvisited_le_size r.nodes v.path) h
  have hevaluate := completes_evaluateNested hdepth []
  rw [write_nil] at hevaluate
  exact ⟨hevaluate, completes_displayNested hdepth⟩

/-- Two formulas that need each other, one of them itself as well. -/
def interlocked : Registry Exact where
  nodes := .ofList
    [("a", ⟨"a", "a", .formula (some "b * 2"), [.text "b"], ["b"], some (.value 6), .null, .null⟩),
     ("b", ⟨"b", "b", .formula (some "a + b"), [.text "a", .text "b"], ["a", "b"],
       some (.value 3), .null, .null⟩)]
  roots := ["a"]

/-- From `a` three visits are nested, of which the last is at an id of its path; with a depth of two
it is cut off. -/
theorem visits_end_interlocked :
    interlocked.nodes.size < 3 ∧
    Completes interlocked.nodes (interlocked.evaluateNested 3 ⟨[], "a"⟩)
      (interlocked.evaluate "a") ∧
    Completes interlocked.nodes (interlocked.displayNested 3 ⟨[], "a"⟩)
      (interlocked.display "a") ∧
    let nested : List (Visit × Visit) :=
      [(⟨[], "a"⟩, ⟨["a"], "b"⟩), (⟨["a"], "b"⟩, ⟨["b", "a"], "a"⟩),
        (⟨["a"], "b"⟩, ⟨["b", "a"], "b"⟩)]
    (interlocked.evaluateNested 3 ⟨[], "a"⟩).map (·.nested) = some nested ∧
    (interlocked.displayNested 3 ⟨[], "a"⟩).map (·.nested) = some nested ∧
    (interlocked.evaluateNested 2 ⟨[], "a"⟩).isNone = true ∧
    (interlocked.displayNested 2 ⟨[], "a"⟩).isNone = true := by
  have hsize : interlocked.nodes.size < 3 := by decide +kernel
  obtain ⟨hevaluate, hdisplay⟩ := visits_end interlocked ⟨[], "a"⟩ hsize
  refine ⟨hsize, hevaluate, hdisplay, ?_⟩
  decide +kernel

end FormulaGraph.Registry
