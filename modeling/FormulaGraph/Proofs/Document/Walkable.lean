import FormulaGraph.Proofs.Display.Trees
import FormulaGraph.Proofs.Document.Checked
import FormulaGraph.Proofs.Evaluation.Cycles
import FormulaGraph.Proofs.Evaluation.Denotation
import FormulaGraph.Proofs.Evaluation.Roots
/-!
# Walks through a checked registry

Three walks go through the links of a registry, each by rules of its own: the search for a cycle
enters the children that exist, once each, and skips what is done; evaluation enters those of
formulas that have an expression and clear names, as often as they are listed; the display enters
all that exist. Where the check reports nothing, none of the differences matters. Every entry of
every list is a node, and no node is below itself (`not_transGen_child_of_findCycle`), so evaluation
and display come to all that is listed and never to a node that is on their path.

* `Walkable`: what that means for one node.
* `violations_write`: what is written by an evaluation does not change a report.
* `importDocument_walkable`: the registry that a checked import leaves.
-/
namespace FormulaGraph.Registry

open Links

section

variable {α : Type} [Scalar α] {nodes : OrderedMap Text (Node α)}

/-! ## Evaluation without cycles -/

/-- Along a path of nodes that lead to it, a node that has no cycle below it fails for reasons that
are not in the links. -/
theorem kind_of_outcomeAlong {path : List Text} {id : Text} {f : Failure}
    (h : outcomeAlong nodes path id = .error f) (hid : nodes.contains id = true)
    (hacyclic : AcyclicBelow nodes id)
    (hpath : ∀ p ∈ path, Relation.TransGen (Link nodes) p id) :
    f.kind = .invalidExpression ∨ f.kind = .noFormula := by
  induction path, id using walk_induction nodes with
  | step path id ih =>
    obtain ⟨n, hn⟩ := (nodes.contains_eq_true_iff id).1 hid
    have hmem : id ∉ path := fun hmem => hacyclic id .refl (hpath id hmem)
    rw [outcomeAlong_of_get? hn hmem] at h
    rcases error_cases_of_ownOutcome h with rfl | ⟨names, rfl⟩ | ⟨e, rfl⟩ | ⟨c, hc, hchild⟩
    · exact .inr rfl
    · exact .inl rfl
    · exact .inl rfl
    · have hlink : Link nodes id c := link_of_mem_visited hn hc
      obtain ⟨-, -, hex⟩ := mem_visited.1 hc
      exact ih n hn hmem c hchild hex (fun m hm => hacyclic m (.head hlink hm))
        (transGen_cons hlink hpath)

/-- Where there is no cycle below, a node puts the outcomes of its children together, each being
that of the child alone. -/
theorem evaluate_eq_ownOutcome {r : Registry α} {id : Text} {n : Node α} (hn : r.node? id = some n)
    (hacyclic : AcyclicBelow r.nodes id) :
    (r.evaluate id).1 = ownOutcome r.nodes n fun c => (r.evaluate c).1 := by
  simp only [evaluate_eq]
  rw [outcomeAlong_of_get? hn List.not_mem_nil]
  refine ownOutcome_congr fun c hc => ?_
  have hlink : Link r.nodes id c := link_of_mem_visited hn hc
  obtain ⟨-, -, hex⟩ := mem_visited.1 hc
  have hbelow : AcyclicBelow r.nodes c := fun m hm => hacyclic m (.head hlink hm)
  have hsingle : ∀ p ∈ [id], Relation.TransGen (Link r.nodes) p c := fun p hp =>
    List.mem_singleton.1 hp ▸ .single hlink
  exact (denotes_outcomeAlong [id] hex hbelow hsingle).unique
    (denotes_outcomeAlong [] hex hbelow (by simp))

/-- A success has left its value in every node below. -/
theorem evaluated_of_link {r : Registry α} {id c : Text} {v : α} (h : (r.evaluate id).1 = .ok v)
    (hlink : Link r.nodes id c) : ∃ w m, (r.evaluate c).1 = .ok w ∧
      (r.evaluate id).2.node? c = some m ∧ m.computed = some w := by
  rw [evaluate_eq] at h
  obtain ⟨w, hw⟩ := mem_traceAlong_of_reaches h (.single hlink)
  obtain ⟨_, _, _, _, hex⟩ := hlink
  obtain ⟨m, hm⟩ := contains_iff_node?.1 hex
  refine ⟨w, { m with computed := some w }, evaluate_of_mem_traceAlong hw, ?_, rfl⟩
  rw [evaluate_eq]
  simp only [node?_write, hm, Option.map_some, lookup_traceAlong hw]

/-! ## What a report says and does not say -/

omit [Scalar α] in
theorem write_eq (r : Registry α) (notes : Notes α) : r.write notes =
    { r with nodes := r.nodes.mapValues fun id n =>
        { n with computed := (notes.lookup id).or n.computed } } := by
  unfold write
  congr 2
  funext id n
  cases notes.lookup id <;> rfl

/-- Nothing in a report is about computed values. -/
theorem violations_recomputed (nodes : OrderedMap Text (Node α)) (roots : List Text)
    (computed : Text → Node α → Option α) :
    Links.violations (nodes.mapValues fun id n => { n with computed := computed id n }) roots =
      Links.violations nodes roots := by
  have hcontains : (nodes.mapValues fun id n =>
      { n with computed := computed id n }).contains = nodes.contains := by
    funext id
    simp [OrderedMap.contains]
  have hlinks : ofNodes (nodes.mapValues fun id n => { n with computed := computed id n }) =
      ofNodes nodes := by
    rw [ofNodes, ofNodes, hcontains]
    simp only [OrderedMap.mapValues, List.map_map, Function.comp_def, Node.children]
  have hmissing : isMissing (nodes.mapValues fun id n =>
      { n with computed := computed id n }) = isMissing nodes := by
    funext v
    cases v <;> simp [isMissing, hcontains]
  simp only [Links.violations, hlinks, hcontains, OrderedMap.get?_mapValues, Option.map_map]
  simp only [nodeViolations, hmissing]
  simp only [OrderedMap.mapValues, List.flatMap_map]
  rfl

theorem violations_write (r : Registry α) (notes : Notes α) :
    (r.write notes).violations = r.violations := by
  rw [write_eq]
  exact violations_recomputed r.nodes r.roots _

theorem complete_of_violations_eq_nil {r : Registry α} (h : r.violations = []) : Complete r := by
  intro id n hn
  have hnode := (violations_eq_nil_iff.1 h).1 _ (OrderedMap.get?_eq_some_iff.1 hn)
  exact (nodeViolations_eq_nil_iff.1 hnode).2.2

theorem acyclicBelow_of_violations_eq_nil {r : Registry α} (h : r.violations = []) (id : Text) :
    AcyclicBelow r.nodes id := by
  have hcycle := not_transGen_child_of_findCycle (violations_eq_nil_iff.1 h).2.2.2
  have hchild : ∀ p c, Link r.nodes p c → Child (ofNodes r.nodes) p c := by
    rintro p c ⟨n, hn, -, hc, hex⟩
    exact child_ofNodes.2 ⟨n, hn, hc, hex⟩
  exact fun m _ hm => hcycle m (Relation.TransGen.mono hchild _ _ hm)

/-- Evaluation and display come to everything that is listed below a node, and to nothing again on
the same path. -/
structure Walkable (r : Registry α) (id : Text) (n : Node α) : Prop where
  /-- Every entry of the list is an id. -/
  listed : n.listed = n.children.map .text
  /-- No child is skipped as missing. -/
  children : ∀ c ∈ n.children, r.nodes.contains c = true
  /-- What an evaluation returns is made of the outcomes of all children. -/
  outcome : (r.evaluate id).1 = ownOutcome r.nodes n fun c => (r.evaluate c).1
  /-- A success has evaluated every child. -/
  evaluated : ∀ v, (r.evaluate id).1 = .ok v → ∀ c ∈ n.children, ∃ w m,
    (r.evaluate c).1 = .ok w ∧ (r.evaluate id).2.node? c = some m ∧ m.computed = some w
  /-- A failure is about an expression or the want of one. -/
  failure : ∀ f, (r.evaluate id).1 = .error f →
    f.kind = .invalidExpression ∨ f.kind = .noFormula
  /-- The tree has every child in it and marks none. -/
  shown : ∃ t, r.display id = some t ∧ Unfolds r id t

theorem walkable_of_violations_eq_nil {r : Registry α} (h : r.violations = []) {id : Text}
    {n : Node α} (hn : r.node? id = some n) : Walkable r id n := by
  have hcomplete := complete_of_violations_eq_nil h
  have hacyclic := acyclicBelow_of_violations_eq_nil h id
  have hid : r.nodes.contains id = true := contains_iff_node?.2 ⟨n, hn⟩
  have hlink : ∀ c ∈ n.children, Link r.nodes id c := by
    intro c hc
    refine ⟨n, hn, ?_, hc, hcomplete.contains hn hc⟩
    cases hkind : n.kind with
    | formula => exact beq_iff_eq.2 hkind
    | factor =>
      have hfactor : n.isFactor = true := Node.isFactor_iff.2 hkind
      have hnothing := ((sound_of_violations_eq_nil h).stored id n hn).factor hfactor
      rw [Node.children, hnothing] at hc
      cases hc
  exact {
    listed := hcomplete.listed_eq hn
    children := fun c hc => hcomplete.contains hn hc
    outcome := evaluate_eq_ownOutcome hn hacyclic
    evaluated := fun v hv c hc => evaluated_of_link hv (hlink c hc)
    failure := fun f hf => by
      rw [evaluate_eq] at hf
      exact kind_of_outcomeAlong hf hid hacyclic (by simp)
    shown := unfolds_display hcomplete
      (not_transGen_child_of_findCycle (violations_eq_nil_iff.1 h).2.2.2) hid }

/-- **Checked imports can be walked.** After a checked import that is accepted, with the evaluation
of all roots that belongs to it, the check still reports nothing, and every node is walkable. -/
theorem importDocument_walkable {s r : Registry α} {doc : Json α}
    (h : s.importDocument doc true = (.ok (), r)) :
    r.violations = [] ∧ ∀ id n, r.node? id = some n → Walkable r id n := by
  obtain ⟨imported, -, hviolations, rfl⟩ := importDocument_eq_ok h
  have hreport : imported.evaluateRoots.2.violations = [] := by
    rw [evaluateRoots, evaluateEach_eq, violations_write, hviolations rfl]
  exact ⟨hreport, fun id n hn => walkable_of_violations_eq_nil hreport hn⟩

end

/-- The factor is listed twice. It is evaluated and shown at both places, and marked at neither. -/
theorem importDocument_walkable_doubled :
    (importedPair ["a", "a"] ["p"]).1 = .ok () ∧
    (importedPair ["a", "a"] ["p"]).2.violations = [] ∧
    ((importedPair ["a", "a"] ["p"]).2.evaluate "p").1 = .ok (.value 3) ∧
    ∃ n, (importedPair ["a", "a"] ["p"]).2.node? "p" = some n ∧ n.children = ["a", "a"] ∧
      Walkable (importedPair ["a", "a"] ["p"]).2 "p" n := by
  have haccepted : (importedPair ["a", "a"] ["p"]).1 = .ok () := by decide +kernel
  have himport : empty.importDocument (pairDocument ["a", "a"] ["p"]) true =
      (.ok (), (importedPair ["a", "a"] ["p"]).2) := Prod.ext haccepted rfl
  have hchildren : (importedPair ["a", "a"] ["p"]).2.childIds "p" = ["a", "a"] := by
    decide +kernel
  have hp : (importedPair ["a", "a"] ["p"]).2.nodes.contains "p" = true := by decide +kernel
  obtain ⟨hreport, hwalkable⟩ := importDocument_walkable himport
  obtain ⟨n, hn⟩ := contains_iff_node?.1 hp
  rw [childIds_of_node? hn] at hchildren
  exact ⟨haccepted, hreport, by decide +kernel, n, hn, hchildren, hwalkable "p" n hn⟩

end FormulaGraph.Registry
