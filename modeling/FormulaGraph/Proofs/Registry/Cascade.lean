import FormulaGraph.Number.Exact
import FormulaGraph.Proofs.Evaluation.Chains
import FormulaGraph.Proofs.Registry.Applied
/-!
# The cascade of a new value

A factor that gets a value causes an evaluation of every root. Each of them comes to all that can be
reached through formulas that are evaluated at all (`renews_of_chain`), whether the root itself and
the formulas on the way succeed or not, and no later root undoes what an earlier one wrote
(`Current.evaluateEach`).

* `update_value_refreshes`: what succeeds on its own and lies below a root in this way is current
  after the update.
-/
namespace FormulaGraph.Registry

variable {α : Type} [Scalar α]

/-- **The cascade reaches every healthy node.** -/
theorem update_value_refreshes {r : Registry α} {f : Text} {c : Changes α} {given : Json α}
    {evaluations : Evaluations α} (hvalue : c.value = some given)
    (happlied : (r.update f c).1 = .ok evaluations) {root m : Text} (hroot : root ∈ r.roots)
    (hchain : Relation.ReflTransGen (Passes (r.update f c).2.nodes) root m) {w : α}
    (hw : ((r.update f c).2.evaluate m).1 = .ok w) :
    ∃ n, (r.update f c).2.node? m = some n ∧ n.computed = some w := by
  obtain ⟨-, ⟨hnone, -⟩ | ⟨given', v, -, -, heq⟩ | ⟨hnone, -⟩⟩ := update_eq_ok happlied
  · cases hvalue.symm.trans hnone
  · have hsame : AgreeOn Node.unevaluated _ (r.update f c).2 := heq ▸ agreeOn_evaluateEach _ r.roots
    have hrenews := (renews_of_chain hchain).congr hsame.sameMeaning.symm
    have hcurrent : Current (r.update f c).2 m := heq ▸ current_evaluateEach hroot hrenews
    have hown := hw
    rw [evaluate_eq] at hown
    obtain ⟨n, hn, -⟩ := of_outcomeAlong_eq_ok hown
    exact ⟨n, hn, hcurrent n w hn hw⟩
  · cases hvalue.symm.trans hnone

/-- `t` and `u` need each other, and `t` needs `m` through `u`. The other root does not exist. -/
def knotted : Registry Exact where
  nodes := .ofList
    [("a", ⟨"a", "a", .factor (.value 3), [], ["m"], some (.value 3), .null, .null⟩),
     ("m", ⟨"m", "m", .formula (some "a + 1"), [.text "a"], ["u"], some (.value 4), .null, .null⟩),
     ("u", ⟨"u", "u", .formula (some "t + m"), [.text "t", .text "m"], ["t"], none, .null, .null⟩),
     ("t", ⟨"t", "t", .formula (some "u"), [.text "u"], ["u"], some (.value 9), .null, .null⟩)]
  roots := ["gone", "t"]

/-- A new value for `a`. -/
def raised : Changes Exact := { Changes.empty with value := some (.real (.value 5)) }

/-- Both roots fail, and `m` is brought up to date all the same. -/
theorem update_value_refreshes_knotted :
    (∃ evaluations, (knotted.update "a" raised).1 = .ok evaluations) ∧
    (∃ f, ((knotted.update "a" raised).2.evaluate "gone").1 = .error f) ∧
    (∃ f, ((knotted.update "a" raised).2.evaluate "t").1 = .error f) ∧
    ∃ n, (knotted.update "a" raised).2.node? "m" = some n ∧ n.computed = some (.value 6) := by
  have hok : ∃ evaluations, (knotted.update "a" raised).1 = .ok evaluations := ⟨_, rfl⟩
  obtain ⟨evaluations, happlied⟩ := hok
  have hdown : Passes (knotted.update "a" raised).2.nodes "t" "u" := by decide +kernel
  have hend : Passes (knotted.update "a" raised).2.nodes "u" "m" := by decide +kernel
  have hvalue : ((knotted.update "a" raised).2.evaluate "m").1 = .ok (.value 6) := by
    decide +kernel
  exact ⟨⟨evaluations, happlied⟩, ⟨.nodeNotFound "gone", by decide +kernel⟩,
    ⟨.circular "t", by decide +kernel⟩,
    update_value_refreshes rfl happlied (by decide +kernel) (.tail (.single hdown) hend) hvalue⟩

end FormulaGraph.Registry
