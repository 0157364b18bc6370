import FormulaGraph.Proofs.Links.Cycles
import FormulaGraph.Proofs.Links.Violations
/-!
# Intact tables

A report is made from a graph that is derived from the table: links to missing nodes are left out of
it, and so are repetitions. What is left out could hide something. It does not: a missing child is
reported by the node that lists it, a repetition adds nothing to a set, and no cycle goes through a
missing node (`acyclic_ofNodes_iff`). So a report is empty exactly when the table is intact as it
stands, with all that its nodes list.
-/
namespace FormulaGraph.Links

variable {α : Type} {nodes : OrderedMap Text (Node α)}

/-- A table of nodes with its roots in which nothing is inconsistent. -/
structure Intact (nodes : OrderedMap Text (Node α)) (roots : List Text) : Prop where
  /-- Every node is stored under its own id. -/
  stored : ∀ key n, nodes.get? key = some n → n.id = key
  /-- Whatever a node lists is the id of a node. -/
  children_exist : ∀ key n, nodes.get? key = some n →
    ∀ v ∈ n.listed, ∃ c, v = .text c ∧ nodes.contains c = true
  factors_childless : ∀ key n, nodes.get? key = some n → n.isFactor = true → n.listed = []
  /-- The recorded parents of a node are the keys of the nodes that list it. -/
  mirrored : ∀ key n, nodes.get? key = some n → ∀ p, p ∈ n.parents ↔ Lists nodes p key
  roots_exist : ∀ id ∈ roots, nodes.contains id = true
  acyclic : ∀ id, ¬Relation.TransGen (Lists nodes) id id

/-- Dropping the links to missing nodes breaks no cycle. -/
theorem acyclic_ofNodes_iff : (∀ id, ¬Relation.TransGen (Child (ofNodes nodes)) id id) ↔
    ∀ id, ¬Relation.TransGen (Lists nodes) id id := by
  rw [child_ofNodes_eq]
  refine forall_congr' fun id => not_congr ⟨?_, fun h => ?_⟩
  · exact Relation.TransGen.mono (fun _ _ h => h.1) id id
  · obtain ⟨c, hc, -⟩ := Relation.TransGen.head'_iff.1 h
    exact transGen_hasChild (contains_of_lists hc) h

theorem forall_entries_iff (P : Text → Node α → Prop) :
    (∀ e ∈ nodes.entries, P e.1 e.2) ↔ ∀ key n, nodes.get? key = some n → P key n := by
  constructor
  · exact fun h key n hn => h (key, n) (OrderedMap.get?_eq_some_iff.1 hn)
  · exact fun h e he => h e.1 e.2 (OrderedMap.get?_eq_some_iff.2 he)

/-- The recorded parents of a node that exists raise no report. -/
theorem parentViolations_ofNodes_eq_nil_iff {key : Text} {n : Node α}
    (hn : nodes.get? key = some n) : parentViolations (ofNodes nodes) key n = [] ↔
      ∀ p, p ∈ n.parents ↔ Lists nodes p key := by
  have hkey : nodes.contains key = true := (nodes.contains_eq_true_iff key).2 ⟨n, hn⟩
  simp only [parentViolations_eq_nil_iff, mem_parentsOf_ofNodes, hkey, true_and]
  rfl

variable [Scalar α]

/-- **Nothing is reported exactly for intact tables.** -/
theorem violations_eq_nil_iff_intact (nodes : OrderedMap Text (Node α)) (roots : List Text) :
    violations nodes roots = [] ↔ Intact nodes roots := by
  rw [violations_eq_nil_iff, findCycle_eq_none_iff, acyclic_ofNodes_iff,
    forall_entries_iff fun key n => nodeViolations nodes key n = [],
    forall_entries_iff fun key n => parentViolations (ofNodes nodes) key n = []]
  simp only [nodeViolations_eq_nil_iff]
  constructor
  · rintro ⟨hnode, hmirrored, hroots, hacyclic⟩
    exact {
      stored := fun key n hn => (hnode key n hn).1
      children_exist := fun key n hn => (hnode key n hn).2.2
      factors_childless := fun key n hn => (hnode key n hn).2.1
      mirrored := fun key n hn => (parentViolations_ofNodes_eq_nil_iff hn).1 (hmirrored key n hn)
      roots_exist := hroots
      acyclic := hacyclic }
  · intro h
    refine ⟨fun key n hn => ?_, fun key n hn => ?_, h.roots_exist, h.acyclic⟩
    · exact ⟨h.stored key n hn, h.factors_childless key n hn, h.children_exist key n hn⟩
    · exact (parentViolations_ofNodes_eq_nil_iff hn).2 (h.mirrored key n hn)

end FormulaGraph.Links
