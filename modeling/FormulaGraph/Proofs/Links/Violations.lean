import FormulaGraph.Proofs.Links.Ancestors
import FormulaGraph.Proofs.Registry.Edits
/-!
# Tables without violations

`violations` reports what is wrong with a table of nodes and its roots. Here the report is read
backwards: when it is empty, every node is stored under its own id, lists nothing but existing
nodes, and records as its parents the nodes that list it; factors list nothing, and all roots exist.

* `violations_eq_nil_iff`: the report of a table, from those of its nodes, roots and links.
* `nodeViolations_eq_nil_iff`, `parentViolations_eq_nil_iff`: what they say of one node.

**Sets, not lists.** Recorded and listed parents are compared without repetitions and without their
order, so a sound table may have an id twice in a list of children, of parents or of roots.
-/
namespace FormulaGraph

namespace Links

section

variable {α : Type} {nodes : OrderedMap Text (Node α)}

theorem mem_parentsOf_ofNodes {p c : Text} :
    p ∈ parentsOf (ofNodes nodes) c ↔
      nodes.contains c = true ∧ ∃ n, nodes.get? p = some n ∧ c ∈ n.children := by
  rw [mem_parentsOf, ofNodes, OrderedMap.contains, OrderedMap.keys_mapValues, childrenOf,
    OrderedMap.get?_mapValues, OrderedMap.get?_mapValues, Option.isSome_map,
    ← OrderedMap.contains_iff]
  cases hp : nodes.get? p with
  | none => simp [OrderedMap.contains, hp]
  | some n => simp [OrderedMap.contains, hp, List.mem_eraseDups, and_comm]

theorem isMissing_eq_false_iff {v : Json α} :
    isMissing nodes v = false ↔ ∃ c, v = .text c ∧ nodes.contains c = true := by
  cases v <;> simp [isMissing]

variable [Scalar α]

theorem nodeViolations_eq_nil_iff {key : Text} {n : Node α} :
    nodeViolations nodes key n = [] ↔ n.id = key ∧ (n.isFactor = true → n.listed = []) ∧
      ∀ v ∈ n.listed, ∃ c, v = .text c ∧ nodes.contains c = true := by
  have hid : (if n.id ≠ key then [Violation.wrongId n.name key n.id] else []) = [] ↔
      n.id = key := by
    split <;> simp_all
  have hmissing : ∀ missing : List (Json α),
      (if missing.isEmpty then [] else [Violation.missingChildren n.name (missing.map Json.shown)])
        = [] ↔ missing = [] := by
    intro missing
    cases missing <;> simp
  have hfactor : (if n.isFactor = true ∧ (!n.listed.isEmpty) = true then
      [Violation.factorWithChildren n.name] else []) = [] ↔
      (n.isFactor = true → n.listed = []) := by
    cases n.isFactor <;> cases n.listed <;> simp
  simp only [nodeViolations, List.append_eq_nil_iff, hid, hmissing, hfactor,
    List.filter_eq_nil_iff, Bool.not_eq_true, isMissing_eq_false_iff]
  tauto

omit [Scalar α] in
theorem parentViolations_eq_nil_iff {g : Children Text} {key : Text} {n : Node α} :
    parentViolations g key n = [] ↔ ∀ p, p ∈ n.parents ↔ p ∈ parentsOf g key := by
  rw [← Text.sortedUnique_eq_iff, parentViolations]
  split
  · rename_i hdiffer
    simp [hdiffer]
  · rename_i hsame
    simp [not_not.1 hsame]

theorem violations_eq_nil_iff {roots : List Text} :
    violations nodes roots = [] ↔ (∀ e ∈ nodes.entries, nodeViolations nodes e.1 e.2 = []) ∧
      (∀ e ∈ nodes.entries, parentViolations (ofNodes nodes) e.1 e.2 = []) ∧
      (∀ id ∈ roots, nodes.contains id = true) ∧ findCycle (ofNodes nodes) = none := by
  simp only [violations, List.append_eq_nil_iff, List.flatMap_eq_nil_iff, List.map_eq_nil_iff,
    List.filter_eq_nil_iff, Bool.not_eq_true', Bool.not_eq_false, and_assoc]
  cases findCycle (ofNodes nodes) <;> simp

end

end Links

end FormulaGraph
