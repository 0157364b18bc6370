import FormulaGraph.Number.Exact
import FormulaGraph.Proofs.Links.Ancestors
import FormulaGraph.Proofs.Registry.Applied
/-!
# Evaluating the dependents of an edited node

An edit evaluates the edited node at most, or all roots. What depends on the node keeps the values
that it had, and `evaluateDependents` brings these up to date.

Only the edited node and the nodes with a chain of links to it can have got another value by the
edit (`Current.of_standing`), and the links are those after the edit: a chain to the node does not
use what the node itself lists. The nodes on these chains are the dependents, and each of them is
evaluated, in whichever order. What is written on the way are values that nodes have on their own,
so nothing that is current is lost (`Current.evaluateEach`).

* `fresh_evaluateDependents`: after an edit of a fresh registry and the evaluation of the dependents
  the registry is fresh, also where there are cycles, failing nodes and missing children.
-/
namespace FormulaGraph.Registry

variable {α : Type} [Scalar α]

theorem Fresh.of_applied {r r' : Registry α} {x : Text} (hr : Fresh r) (h : Applied x r r') :
    Fresh (r'.evaluateDependents x).2 := by
  obtain ⟨r₁, ids, hedited, rfl, hself⟩ := h
  intro m
  by_cases hx : m = x
  · subst hx
    exact (hself (hr m)).evaluateEach _
  by_cases hdown : Relation.TransGen (Link (r₁.evaluateEach ids).2.nodes) m x
  · exact current_evaluateEach (mem_dependents hdown) (renews_self _ m)
  · have hdown₁ : ¬Relation.TransGen (Link r₁.nodes) m x := fun hchain =>
      hdown (hchain.lift id fun _ _ => (agreeOn_evaluateEach r₁ ids).sameMeaning.link)
    have hbefore : Current r₁ m := (hr m).of_standing hedited hdown₁ (hedited.standing hx)
    exact (hbefore.evaluateEach ids).evaluateEach _

/-- **No value is left stale.** An edit of a fresh registry at a node `x` that is applied, followed
by an evaluation of the dependents of `x`, leaves a fresh registry. -/
theorem fresh_evaluateDependents {r : Registry α} (hr : Fresh r) (x : Text) :
    (∀ c evaluations, (r.update x c).1 = .ok evaluations →
      Fresh ((r.update x c).2.evaluateDependents x).2) ∧
    (∀ child evaluations, (r.addChild x child).1 = .ok evaluations →
      Fresh ((r.addChild x child).2.evaluateDependents x).2) ∧
    (∀ child evaluations, (r.removeChild x child).1 = .ok evaluations →
      Fresh ((r.removeChild x child).2.evaluateDependents x).2) :=
  ⟨fun _ _ h => hr.of_applied (applied_update h), fun _ _ h => hr.of_applied (applied_addChild h),
    fun _ _ h => hr.of_applied (applied_removeChild h)⟩

/-- A fresh registry: `d` needs `b` and `c`, these need `a`; `e` and `f` need each other and `d`. -/
def layered : Registry Exact where
  nodes := .ofList
    [("a", ⟨"a", "a", .factor (.value 3), [], ["b", "c"], some (.value 3), .null, .null⟩),
     ("b", ⟨"b", "b", .formula (some "a + 1"), [.text "a", .text "z"], ["d"], some (.value 4),
       .null, .null⟩),
     ("c", ⟨"c", "c", .formula (some "2 * a"), [.text "a"], ["d"], some (.value 6), .null, .null⟩),
     ("d", ⟨"d", "d", .formula (some "b + c"), [.text "b", .text "c"], ["e"], some (.value 10),
       .null, .null⟩),
     ("e", ⟨"e", "e", .formula (some "d + f"), [.text "d", .text "f"], ["f"], some (.value 1),
       .null, .null⟩),
     ("f", ⟨"f", "f", .formula (some "e"), [.text "e"], ["e"], none, .null, .null⟩)]
  roots := ["d"]

/-- Another expression for `b`. -/
def squared : Changes Exact := { Changes.empty with expression := some (some "a * a") }

/-- The edit alone leaves `d` stale. Its dependents form a cycle in part. -/
theorem fresh_layered : Fresh layered ∧
    (∃ evaluations, (layered.update "b" squared).1 = .ok evaluations) ∧
    ¬Fresh (layered.update "b" squared).2 ∧
    Fresh ((layered.update "b" squared).2.evaluateDependents "b").2 := by
  have hr : Fresh layered := by decide +kernel
  have hok : ∃ evaluations, (layered.update "b" squared).1 = .ok evaluations := ⟨_, rfl⟩
  obtain ⟨evaluations, happlied⟩ := hok
  exact ⟨hr, ⟨evaluations, happlied⟩, by decide +kernel,
    (fresh_evaluateDependents hr "b").1 squared evaluations happlied⟩

end FormulaGraph.Registry
