import FormulaGraph.Proofs.Evaluation.Frame
import FormulaGraph.Proofs.Links.Acyclic
/-!
# Cycles and evaluation

A walk reports a cycle when it meets an id that is on its own path, and the nodes of a path lead to
the end of it by links. So a report is never caused by sharing alone (`exists_cycle_of_circular`).
In the other direction a node that reaches a cycle cannot succeed, whichever node of the cycle a
walk enters first and wherever it is cut off (`acyclicBelow_of_ok`). What it reports need not be the
cycle: a formula without expression or with two children of one name ends the walk before.

* `evaluate_cycle`: reports of cycles are right, what reaches a cycle fails, and nothing that
  reaches it is written.
* `link_eq_hasChild`: an evaluation follows the links to all existing children, since factors list
  none.
* `evaluate_childCycle`: the same of cycles of existing children.
-/
namespace FormulaGraph

theorem Failure.eq_circular_of_kind {f : Failure} (h : f.kind = .circularDependency) :
    ∃ name, f = .circular name := by
  cases f with
  | circular name => exact ⟨name, rfl⟩
  | _ => cases h

namespace Registry

variable {α : Type} {nodes : OrderedMap Text (Node α)}

/-- The first failure among children is the failure of one of them. -/
theorem exists_child_of_firstFailure {children : List Text} {outcome : Text → Outcome α}
    {f : Failure} (h : firstFailure nodes children outcome = some f) :
    ∃ c ∈ children, nodes.contains c = true ∧ outcome c = .error f := by
  obtain ⟨c, hc, hf⟩ := List.exists_of_findSome?_eq_some h
  obtain ⟨hchild, hex⟩ := List.mem_filter.1 hc
  refine ⟨c, hchild, hex, ?_⟩
  cases ho : outcome c with
  | ok v => simp [failure?, ho] at hf
  | error g => simpa [failure?, ho] using hf

variable [Scalar α]

/-- A node fails by itself, for want of an expression, of clear names or of a value, or with a child
that is evaluated with it. -/
theorem error_cases_of_ownOutcome {n : Node α} {outcome : Text → Outcome α} {f : Failure}
    (h : ownOutcome nodes n outcome = .error f) :
    f = .noFormula n.name ∨ (∃ names, f = .ambiguousChildren n.name names) ∨
      (∃ e, f = .expression e) ∨ ∃ c ∈ visited nodes n, outcome c = .error f := by
  unfold ownOutcome at h
  split at h
  · cases h
  · split at h
    · cases h
      exact .inl rfl
    · rename_i source hs
      split at h
      · rename_i hshared
        unfold formulaOutcome at h
        split at h
        · rename_i g hfirst
          cases h
          obtain ⟨c, hc, hex, ho⟩ := exists_child_of_firstFailure hfirst
          exact .inr (.inr (.inr ⟨c, mem_visited.2 ⟨⟨by simp [hs], hshared⟩, hc, hex⟩, ho⟩))
        · cases hvalue : evaluateExpression source (childContext nodes n.children outcome) with
          | ok v =>
            rw [hvalue] at h
            cases h
          | error e =>
            rw [hvalue] at h
            cases h
            exact .inr (.inr (.inl ⟨e, rfl⟩))
      · cases h
        exact .inr (.inl ⟨_, rfl⟩)

/-- A cycle that a node reports was reported by a child evaluated with it. -/
theorem exists_child_of_circular {n : Node α} {outcome : Text → Outcome α} {name : Text}
    (h : ownOutcome nodes n outcome = .error (.circular name)) :
    ∃ c ∈ visited nodes n, outcome c = .error (.circular name) := by
  rcases error_cases_of_ownOutcome h with hown | ⟨_, hown⟩ | ⟨_, hown⟩ | hchild
  · cases hown
  · cases hown
  · cases hown
  · exact hchild

/-- A walk that reports a cycle, along a path that leads to it, has reached one, and the report
names a node on it. -/
theorem exists_cycle_of_circular {path : List Text} {id name : Text}
    (h : outcomeAlong nodes path id = .error (.circular name))
    (hpath : ∀ p ∈ path, Relation.TransGen (Link nodes) p id) :
    ∃ z n, nodes.get? z = some n ∧ n.name = name ∧ Reaches nodes id z ∧
      Relation.TransGen (Link nodes) z z := by
  induction path, id using walk_induction nodes with
  | step path id ih =>
    cases hn : nodes.get? id with
    | none =>
      rw [outcomeAlong_of_none hn] at h
      cases h
    | some n =>
      by_cases hmem : id ∈ path
      · rw [outcomeAlong_of_mem hn hmem] at h
        cases h
        exact ⟨id, n, hn, rfl, .refl, hpath id hmem⟩
      · rw [outcomeAlong_of_get? hn hmem] at h
        obtain ⟨c, hc, hreport⟩ := exists_child_of_circular h
        have hlink : Link nodes id c := link_of_mem_visited hn hc
        obtain ⟨z, m, hz, hname, hreach, hcycle⟩ :=
          ih n hn hmem c hreport (transGen_cons hlink hpath)
        exact ⟨z, m, hz, hname, .head hlink hreach, hcycle⟩

/-- What reaches a cycle fails. -/
theorem exists_error_of_reaches_cycle {path : List Text} {id z : Text}
    (hreach : Reaches nodes id z) (hcycle : Relation.TransGen (Link nodes) z z) :
    ∃ f, outcomeAlong nodes path id = .error f := by
  cases h : outcomeAlong nodes path id with
  | ok v => exact absurd hcycle (acyclicBelow_of_ok h z hreach)
  | error f => exact ⟨f, rfl⟩

/-- A node that fails on its own is left as it is. -/
theorem node?_evaluate_of_error (r : Registry α) (id : Text) {m : Text} {f : Failure}
    (hm : (r.evaluate m).1 = .error f) : (r.evaluate id).2.node? m = r.node? m := by
  cases hn : r.node? m with
  | none => rw [evaluate_eq, node?_write, hn, Option.map_none]
  | some n =>
    rcases node?_evaluate r id hn with hsame | ⟨v, hv, -⟩
    · exact hsame
    · cases hm.symm.trans (evaluate_of_mem_traceAlong hv)

/-- **Evaluation and cycles.** When the evaluation of a node reports a cycle, a node that it names
lies on one and can be reached. When a cycle can be reached, the evaluation fails, and every node
that lies on the cycle or reaches it stays what it was. -/
theorem evaluate_cycle (r : Registry α) (id : Text) :
    (∀ f, (r.evaluate id).1 = .error f → f.kind = .circularDependency →
      ∃ z n, r.node? z = some n ∧ f = .circular n.name ∧ Reaches r.nodes id z ∧
        Relation.TransGen (Link r.nodes) z z) ∧
    ∀ z, Reaches r.nodes id z → Relation.TransGen (Link r.nodes) z z →
      (∃ f, (r.evaluate id).1 = .error f) ∧
      ∀ m, Reaches r.nodes m z → (r.evaluate id).2.node? m = r.node? m := by
  constructor
  · intro f hf hkind
    obtain ⟨name, rfl⟩ := f.eq_circular_of_kind hkind
    rw [evaluate_eq] at hf
    obtain ⟨z, n, hz, rfl, hreach, hcycle⟩ := exists_cycle_of_circular hf (by simp)
    exact ⟨z, n, hz, rfl, hreach, hcycle⟩
  · intro z hreach hcycle
    have hfails : ∀ m, Reaches r.nodes m z → ∃ f, (r.evaluate m).1 = .error f := by
      intro m hm
      rw [evaluate_eq]
      exact exists_error_of_reaches_cycle hm hcycle
    refine ⟨hfails id hreach, fun m hm => ?_⟩
    obtain ⟨f, hf⟩ := hfails m hm
    exact node?_evaluate_of_error r id hf

/-! ## Cycles of children -/

omit [Scalar α] in
theorem hasChild_of_link {p c : Text} (h : Link nodes p c) : Links.HasChild nodes p c := by
  obtain ⟨n, hn, -, hc, hex⟩ := h
  exact ⟨⟨n, hn, hc⟩, hex⟩

omit [Scalar α] in
/-- An existing child is linked to, since it is no factor that lists it. -/
theorem link_of_hasChild {p c : Text}
    (hleaf : ∀ n, nodes.get? p = some n → n.isFactor = true → n.listed = [])
    (h : Links.HasChild nodes p c) : Link nodes p c := by
  obtain ⟨⟨n, hn, hc⟩, hex⟩ := h
  refine ⟨n, hn, ?_, hc, hex⟩
  by_contra hformula
  have hnothing := hleaf n hn (Node.isFactor_of_not_isFormula hformula)
  rw [Node.children, hnothing] at hc
  cases hc

omit [Scalar α] in
theorem link_eq_hasChild
    (hleaf : ∀ id n, nodes.get? id = some n → n.isFactor = true → n.listed = []) :
    Link nodes = Links.HasChild nodes := by
  funext p c
  exact propext ⟨hasChild_of_link, link_of_hasChild (hleaf p)⟩

/-- **Evaluation and cycles of children.** When the evaluation of a node reports a cycle, a node
that it names lies on a cycle of existing children and can be reached. When such a cycle can be
reached, the evaluation fails, and every node that lies on the cycle or reaches it stays what it
was. -/
theorem evaluate_childCycle (r : Registry α)
    (hleaf : ∀ id n, r.node? id = some n → n.isFactor = true → n.listed = []) (id : Text) :
    (∀ f, (r.evaluate id).1 = .error f → f.kind = .circularDependency →
      ∃ z n, r.node? z = some n ∧ f = .circular n.name ∧
        Relation.ReflTransGen (Links.HasChild r.nodes) id z ∧
        Relation.TransGen (Links.HasChild r.nodes) z z) ∧
    ∀ z, Relation.ReflTransGen (Links.HasChild r.nodes) id z →
      Relation.TransGen (Links.HasChild r.nodes) z z →
      (∃ f, (r.evaluate id).1 = .error f) ∧
      ∀ m, Relation.ReflTransGen (Links.HasChild r.nodes) m z →
        (r.evaluate id).2.node? m = r.node? m := by
  rw [← link_eq_hasChild hleaf]
  exact evaluate_cycle r id

/-- Two cycles below `t`: it needs itself by way of `u`, which has no expression, and `v` and `w`
need each other. The factor below them is shared. -/
def doubled : Registry Exact where
  nodes := .ofList
    [("a", ⟨"a", "a", .factor (.value 3), [], ["t", "w"], none, .null, .null⟩),
     ("t", ⟨"t", "t", .formula (some "a + u + v"), [.text "a", .text "u", .text "v"], ["u"],
       some (.value 8), .null, .null⟩),
     ("u", ⟨"u", "u", .formula none, [.text "t"], ["t"], none, .null, .null⟩),
     ("v", ⟨"v", "v", .formula (some "w"), [.text "w"], ["t", "w"], some (.value 7), .null, .null⟩),
     ("w", ⟨"w", "w", .formula (some "a * v"), [.text "a", .text "v"], ["v"], none, .null, .null⟩)]
  roots := ["t"]

/-- The walk from `v` reports its cycle. The one from `t` ends at `u` and fails for another reason;
`t` and `v` keep their values. -/
theorem evaluate_childCycle_doubled :
    (∀ id n, doubled.node? id = some n → n.isFactor = true → n.listed = []) ∧
    (doubled.evaluate "v").1 = .error (.circular "v") ∧
    (∃ z n, doubled.node? z = some n ∧ Failure.circular "v" = .circular n.name ∧
      Relation.ReflTransGen (Links.HasChild doubled.nodes) "v" z ∧
      Relation.TransGen (Links.HasChild doubled.nodes) z z) ∧
    (doubled.evaluate "t").1 = .error (.noFormula "u") ∧
    (doubled.evaluate "t").2.node? "t" = doubled.node? "t" ∧
    (doubled.evaluate "t").2.node? "v" = doubled.node? "v" := by
  have hleaf : ∀ id n, doubled.node? id = some n → n.isFactor = true → n.listed = [] := by
    intro id n hn
    have hall : ∀ e ∈ doubled.nodes.entries, e.2.isFactor = true → e.2.listed = [] := by decide
    exact hall (id, n) (OrderedMap.get?_eq_some_iff.1 hn)
  have hlinks : Links.HasChild doubled.nodes "t" "u" ∧ Links.HasChild doubled.nodes "u" "t" ∧
      Links.HasChild doubled.nodes "t" "v" ∧ Links.HasChild doubled.nodes "v" "w" ∧
      Links.HasChild doubled.nodes "w" "v" := by
    refine ⟨⟨⟨_, rfl, ?_⟩, ?_⟩, ⟨⟨_, rfl, ?_⟩, ?_⟩, ⟨⟨_, rfl, ?_⟩, ?_⟩, ⟨⟨_, rfl, ?_⟩, ?_⟩,
      ⟨⟨_, rfl, ?_⟩, ?_⟩⟩
    all_goals decide +kernel
  obtain ⟨htu, hut, htv, hvw, hwv⟩ := hlinks
  have hv : (doubled.evaluate "v").1 = .error (.circular "v") := by decide +kernel
  have hreport := (evaluate_childCycle doubled hleaf "v").1 (.circular "v") hv rfl
  have ht := ((evaluate_childCycle doubled hleaf "t").2 "t" .refl (.tail (.single htu) hut)).2
  have hkept :=
    ((evaluate_childCycle doubled hleaf "t").2 "v" (.single htv) (.tail (.single hvw) hwv)).2
  have hreason : (doubled.evaluate "t").1 = .error (.noFormula "u") := by decide +kernel
  exact ⟨hleaf, hv, hreport, hreason, ht "t" .refl, hkept "v" .refl⟩

end Registry

end FormulaGraph
