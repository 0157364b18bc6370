import FormulaGraph.Proofs.Evaluation.Roots
import FormulaGraph.Proofs.Links.Violations
/-!
# Evaluating what depends on a node

The nodes that depend on a node are found by steps to parents, put in order by the links between
them alone, and evaluated one after the other. Each evaluation writes into nodes that later ones
read; as with the roots, it makes no difference to them.

* `mem_ancestors_ofNodes`: what is found are the nodes with a chain of links to the node.
* `ordersDependents`: the order in which they are evaluated.
* `evaluateDependents_visits`: each of them has the outcome that it has alone, on the registry as it
  was before.

**Links that leave the dependents have no say in the order.** A cycle below some of them does not
disturb it; only one that goes through dependents alone puts them in the order of their ids.
-/
namespace FormulaGraph.Registry

variable {α : Type} {nodes : OrderedMap Text (Node α)}

/-- A link between two of the given nodes. -/
def Among (nodes : OrderedMap Text (Node α)) (ids : List Text) (p c : Text) : Prop :=
  Links.HasChild nodes p c ∧ p ∈ ids ∧ c ∈ ids

/-- What the order of the dependents of a node comes to. -/
structure OrdersDependents (nodes : OrderedMap Text (Node α)) (id : Text) (order : List Text) :
    Prop where
  nodup : order.Nodup
  /-- A chain has one link or more, so the node itself is there only when it is on a cycle. -/
  mem_iff : ∀ m, m ∈ order ↔ Relation.TransGen (Links.HasChild nodes) m id
  children_before : (∀ m, ¬Relation.TransGen (Among nodes order) m m) →
    ∀ before m behind, order = before ++ m :: behind → ∀ c, Among nodes order m c → c ∈ before
  increasing : (∃ m, Relation.TransGen (Among nodes order) m m) →
    order.Pairwise fun a b => a.numbers < b.numbers

theorem child_restrict_ofNodes (nodes : OrderedMap Text (Node α)) (ids : List Text) :
    Links.Child (Links.restrict (Links.ofNodes nodes) ids) = Among nodes ids := by
  funext p c
  rw [Among, ← Links.child_ofNodes_eq]
  exact propext Links.child_restrict

theorem among_congr {ids ids' : List Text} (h : ∀ m, m ∈ ids ↔ m ∈ ids') :
    Among nodes ids = Among nodes ids' := by
  funext p c
  rw [Among, Among, h, h]

/-- Steps to parents go along the links. -/
theorem mem_ancestors_ofNodes {m id : Text} : m ∈ Links.ancestors (Links.ofNodes nodes) id ↔
    Relation.TransGen (Links.HasChild nodes) m id := by
  have hstep : (fun p c => p ∈ Links.parentsOf (Links.ofNodes nodes) c) =
      Links.HasChild nodes := by
    funext p c
    rw [Links.mem_parentsOf_ofNodes, Links.HasChild, Links.Lists, and_comm]
  rw [Links.mem_ancestors_iff, hstep]

theorem ordersDependents (r : Registry α) (id : Text) :
    OrdersDependents r.nodes id (r.dependents id) := by
  have hmem : ∀ m, m ∈ r.dependents id ↔ m ∈ Links.ancestors (Links.ofNodes r.nodes) id :=
    fun _ => mem_dependents_iff
  have hlinks := child_restrict_ofNodes r.nodes (Links.ancestors (Links.ofNodes r.nodes) id)
  rw [← among_congr hmem] at hlinks
  have hmem_iff := fun m => (hmem m).trans mem_ancestors_ofNodes
  cases horder : Links.childrenFirst
      (Links.restrict (Links.ofNodes r.nodes) (Links.ancestors (Links.ofNodes r.nodes) id)) with
  | ok order =>
    have hdependents : r.dependents id = order := by simp only [dependents, horder]
    have hordered := (Links.sorting_of_childrenFirst_eq_ok horder).isOrder
    have hacyclic := Links.not_transGen_of_childrenFirst_eq_ok horder
    rw [hlinks] at hacyclic
    refine ⟨?_, hmem_iff, fun _ before m behind hsplit c hc => ?_, fun ⟨m, hm⟩ => ?_⟩
    · rw [hdependents]
      exact hordered.nodup
    · rw [← hlinks] at hc
      exact hordered.children_before before m behind (hdependents ▸ hsplit) c hc
    · exact absurd hm (hacyclic m)
  | error e =>
    have hdependents : r.dependents id =
        Text.sorted (Links.ancestors (Links.ofNodes r.nodes) id) := by
      simp only [dependents, horder]
    have hcyclic := Links.exists_transGen_of_childrenFirst_eq_error horder
    rw [hlinks] at hcyclic
    have hnodup := Links.nodup_ancestors (Links.ofNodes r.nodes) id
    refine ⟨?_, hmem_iff, fun hacyclic => ?_, fun _ => ?_⟩
    · rw [hdependents]
      exact (Text.sorted_perm _).nodup_iff.2 hnodup
    · obtain ⟨m, hm⟩ := hcyclic
      exact absurd hm (hacyclic m)
    · rw [hdependents]
      exact Text.pairwise_lt_sorted hnodup

variable [Scalar α]

theorem entries_outcomes (r : Registry α) {ids : List Text} (h : ids.Nodup) :
    (r.outcomes ids).entries = ids.map fun id => (id, (r.evaluate id).1) := by
  have hlist : r.outcomes ids = .ofList (ids.map fun id => (id, (r.evaluate id).1)) := by
    rw [outcomes, OrderedMap.ofList, List.foldl_map]
  rw [hlist]
  refine OrderedMap.entries_ofList ?_
  simpa [Function.comp_def] using h

/-- **What depends on a node is evaluated once, children first.** The dependents come with all
children of each before it, or with increasing ids where the links between them form a cycle. Each
is reported with the outcome that it has alone, before the others are evaluated. -/
theorem evaluateDependents_visits (r : Registry α) (id : Text) :
    OrdersDependents r.nodes id (r.evaluateDependents id).1.keys ∧
    ∀ e ∈ (r.evaluateDependents id).1.entries, e.2 = (r.evaluate e.1).1 := by
  have horder := ordersDependents r id
  have hentries : (r.evaluateDependents id).1.entries =
      (r.dependents id).map fun m => (m, (r.evaluate m).1) := by
    rw [evaluateDependents, evaluateEach_eq]
    exact entries_outcomes r horder.nodup
  have hkeys : (r.evaluateDependents id).1.keys = r.dependents id := by
    simp [OrderedMap.keys, hentries, Function.comp_def]
  constructor
  · rwa [hkeys]
  · rw [hentries]
    exact List.forall_mem_map.2 fun m _ => rfl

/-- Two formulas over a factor, the first of which needs the second. The second also needs a formula
that needs itself. -/
def stacked : Registry Exact where
  nodes := .ofList
    [("b", ⟨"b", "b", .formula (some "c * z"), [.text "c", .text "z"], [], none, .null, .null⟩),
     ("c", ⟨"c", "c", .formula (some "z + u"), [.text "z", .text "u"], ["b"], none, .null, .null⟩),
     ("u", ⟨"u", "u", .formula (some "u"), [.text "u"], ["u", "c"], none, .null, .null⟩),
     ("z", ⟨"z", "z", .factor (.value 2), [], ["b", "c"], some (.value 2), .null, .null⟩)]
  roots := []

/-- Both parents of `z` are found, and the first of them once more above the second. -/
theorem ancestors_stacked :
    Links.ancestors (Links.ofNodes stacked.nodes) "z" = (["c", "b"] : List Text) := by
  have hkeys : (Links.ofNodes stacked.nodes).keys = (["b", "c", "u", "z"] : List Text) := by
    decide +kernel
  have hz : Links.parentsOf (Links.ofNodes stacked.nodes) "z" = (["b", "c"] : List Text) := by
    decide +kernel
  have hb : Links.parentsOf (Links.ofNodes stacked.nodes) "b" = ([] : List Text) := by
    decide +kernel
  have hc : Links.parentsOf (Links.ofNodes stacked.nodes) "c" = (["b"] : List Text) := by
    decide +kernel
  simp +decide only [Links.ancestors, Links.reach, hkeys, hz, hb, hc, List.nil_append,
    List.cons_append]

/-- The cycle below the dependents of `z` does not reorder them. The two nodes that need each other
depend on themselves, and come in the order of their ids. -/
theorem evaluateDependents_visits_stacked :
    OrdersDependents stacked.nodes "z" ["c", "b"] ∧
    (stacked.evaluate "b").1 = .error (.circular "u") ∧
    ("t" : Text) ∈ (crossed.evaluateDependents "t").1.keys ∧
    (crossed.evaluateDependents "t").1.keys.Pairwise fun a b => a.numbers < b.numbers := by
  have hfirst : Links.childrenFirst (Links.restrict (Links.ofNodes stacked.nodes) ["c", "b"]) =
      .ok (["c", "b"] : List Text) := by decide +kernel
  have hdependents : stacked.dependents "z" = (["c", "b"] : List Text) := by
    simp only [dependents, ancestors_stacked, hfirst]
  have hentries : (stacked.evaluateDependents "z").1.entries =
      (["c", "b"] : List Text).map fun m => (m, .error (.circular "u")) := by
    rw [evaluateDependents, hdependents]
    decide +kernel
  obtain ⟨horder, houtcomes⟩ := evaluateDependents_visits stacked "z"
  rw [OrderedMap.keys, hentries] at horder
  rw [hentries] at houtcomes
  refine ⟨horder, (houtcomes ("b", .error (.circular "u")) (by simp)).symm, ?_⟩
  have hcrossed := (evaluateDependents_visits crossed "t").1
  have hst : Links.HasChild crossed.nodes "s" "t" :=
    ⟨⟨_, rfl, by decide +kernel⟩, by decide +kernel⟩
  have hts : Links.HasChild crossed.nodes "t" "s" :=
    ⟨⟨_, rfl, by decide +kernel⟩, by decide +kernel⟩
  have hs := (hcrossed.mem_iff "s").2 (.single hst)
  have ht := (hcrossed.mem_iff "t").2 (.head hts (.single hst))
  exact ⟨ht, hcrossed.increasing ⟨"t", .head ⟨hts, ht, hs⟩ (.single ⟨hst, hs, ht⟩)⟩⟩

end FormulaGraph.Registry
