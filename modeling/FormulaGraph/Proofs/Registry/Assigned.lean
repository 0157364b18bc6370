import FormulaGraph.Proofs.Evaluation.Frame
import FormulaGraph.Proofs.Evaluation.Roots
import FormulaGraph.Proofs.Registry.Applied
/-!
# A factor with another value

A new value becomes the computed value of the factor, too, and nothing else is changed before the
roots are evaluated.

* `update_value`, `update_value_of_formula`: an update that gives a value.
* `evaluateRoots_assign`: what the registry is afterwards, but for computed values.
-/
namespace FormulaGraph.Registry

variable {α : Type}

/-- The registry with another value for a factor, before anything is evaluated. -/
def assign (r : Registry α) (id : Text) (v : α) : Registry α :=
  r.modify id fun n => { n with body := .factor v, computed := some v }

theorem node?_assign_of_ne (r : Registry α) {id m : Text} (h : m ≠ id) (v : α) :
    (r.assign id v).node? m = r.node? m := by
  rw [assign, node?_modify, if_neg h]

theorem node?_assign_self {r : Registry α} {id : Text} {n : Node α} (hn : r.node? id = some n)
    (v : α) : (r.assign id v).node? id = some { n with body := .factor v, computed := some v } := by
  rw [assign, node?_modify, if_pos rfl, hn, Option.map_some]

theorem agreeOn_name_assign (r : Registry α) (id : Text) (v : α) :
    AgreeOn Node.name r (r.assign id v) := agreeOn_modify fun _ _ => rfl

theorem sameNames_assign (r : Registry α) (id : Text) (v : α) (children : List Text) :
    SameNames r.nodes (r.assign id v).nodes children :=
  fun c _ => ((agreeOn_name_assign r id v).nodes c).symm

variable [Scalar α]

theorem keys_evaluateEach (r : Registry α) (ids : List Text) :
    (r.evaluateEach ids).2.nodes.keys = r.nodes.keys := by
  rw [evaluateEach_eq, keys_write]

/-- Roots, keys and their order stay, and a node changes in its computed value at most, except that
the factor has the new value. -/
theorem evaluateRoots_assign (r : Registry α) (id : Text) (v : α) :
    (r.assign id v).evaluateRoots.2.roots = r.roots ∧
    (r.assign id v).evaluateRoots.2.nodes.keys = r.nodes.keys ∧
    ∀ k m, r.node? k = some m → ∃ m', (r.assign id v).evaluateRoots.2.node? k = some m' ∧
      m'.unevaluated = (if k = id then { m with body := .factor v } else m).unevaluated := by
  have hsame := agreeOn_evaluateEach (r.assign id v) (r.assign id v).roots
  refine ⟨hsame.roots, ?_, fun k m hm => ?_⟩
  · rw [evaluateRoots, keys_evaluateEach]
    exact OrderedMap.keys_modify _ _ _
  · by_cases hk : k = id
    · subst hk
      obtain ⟨m', hm', hunevaluated⟩ := hsame.symm.node? (node?_assign_self hm v)
      exact ⟨m', hm', by rw [hunevaluated, if_pos rfl]; rfl⟩
    · rw [← node?_assign_of_ne r hk v] at hm
      obtain ⟨m', hm', hunevaluated⟩ := hsame.symm.node? hm
      exact ⟨m', hm', by rw [hunevaluated, if_neg hk]⟩

theorem update_of_none {r : Registry α} {id : Text} (hn : r.node? id = none) (c : Changes α) :
    r.update id c = (.error (.rejected (.nodeNotFound id)), r) := by
  simp [update, hn]

theorem update_value {r : Registry α} {id : Text} {n : Node α} (hn : r.node? id = some n)
    (hfactor : n.isFactor = true) (v : α) :
    r.update id { Changes.empty with value := some (.real v) } =
      (.ok (r.assign id v).evaluateRoots.1, (r.assign id v).evaluateRoots.2) := by
  have hkind : n.kind = .factor := Node.isFactor_iff.1 hfactor
  have hmetadata : r.modify id
      { Changes.empty with value := some (.real v) : Changes α }.applyMetadata = r :=
    modify_of_eq fun _ => rfl
  simp only [update, hn, Changes.rejection?, Changes.empty, hkind] at hmetadata ⊢
  simp [hmetadata, updateFactor, Json.number, setValue, assign]

theorem update_value_of_formula {r : Registry α} {id : Text} {n : Node α}
    (hn : r.node? id = some n) (hformula : n.isFormula = true) (v : α) :
    r.update id { Changes.empty with value := some (.real v) } =
      (.error (.rejected (.formulaValue n.name)), r) := by
  have hkind : n.kind = .formula := beq_iff_eq.1 hformula
  simp [update, hn, Changes.rejection?, Changes.empty, hkind]

end FormulaGraph.Registry
