import FormulaGraph.Number.Exact
import FormulaGraph.Proofs.Evaluation.Walk
/-!
# What a node denotes

`Denotes` gives a node its meaning by clauses on the graph alone: nothing in them is about paths,
notes, cached values or recorded parents. A factor denotes its value. A formula denotes a failure
when it has no expression, and when two of its existing children share a name; otherwise the first
failure among its existing children, or the value of its expression under their names and values.

* `Denotes.unique`: a node denotes one outcome at most. Above a cycle it may denote none.
* `denotes_outcomeAlong`: a node that has no cycle below it denotes its outcome along every path
  that leads to it.
* `evaluate_eq_iff_denotes`: so evaluation returns what the node denotes, and when it succeeds it
  leaves every node below with the value which that one denotes.
-/
namespace FormulaGraph.Registry

variable {α : Type} [Scalar α] {nodes : OrderedMap Text (Node α)}

/-- The outcome that a node stands for in its graph. -/
inductive Denotes (nodes : OrderedMap Text (Node α)) : Text → Outcome α → Prop where
  | factor {id : Text} {n : Node α} {v : α} (hn : nodes.get? id = some n)
      (hb : n.body = .factor v) : Denotes nodes id (.ok v)
  | noFormula {id : Text} {n : Node α} (hn : nodes.get? id = some n) (hf : n.isFormula)
      (hs : n.source? = none) : Denotes nodes id (.error (.noFormula n.name))
  | ambiguous {id source : Text} {n : Node α} (hn : nodes.get? id = some n)
      (hs : n.source? = some source) (hd : ¬DistinctNames nodes n.children) :
      Denotes nodes id (.error (.ambiguousChildren n.name (sharedNames nodes n.children)))
  | formula {id source : Text} {n : Node α} {outcome : Text → Outcome α}
      (hn : nodes.get? id = some n) (hs : n.source? = some source)
      (hd : DistinctNames nodes n.children)
      (hc : ∀ c ∈ n.children, nodes.contains c = true → Denotes nodes c (outcome c)) :
      Denotes nodes id (formulaOutcome nodes source n.children outcome)

omit [Scalar α] in
theorem source?_of_factor {n : Node α} {v : α} (hb : n.body = .factor v) : n.source? = none := by
  simp [Node.source?, Node.expression?, hb]

omit [Scalar α] in
theorem not_isFormula_of_factor {n : Node α} {v : α} (hb : n.body = .factor v) :
    ¬n.isFormula = true := by
  simp [Node.isFormula, Node.kind, hb]

theorem formulaOutcome_congr {source : Text} {children : List Text} {f g : Text → Outcome α}
    (h : ∀ c ∈ children, nodes.contains c = true → f c = g c) :
    formulaOutcome nodes source children f = formulaOutcome nodes source children g := by
  rw [formulaOutcome, formulaOutcome, firstFailure_congr h, childContext_congr h]

theorem Denotes.unique {id : Text} {o₁ o₂ : Outcome α} (h₁ : Denotes nodes id o₁)
    (h₂ : Denotes nodes id o₂) : o₁ = o₂ := by
  induction h₁ generalizing o₂ with
  | factor hn hb =>
    cases h₂ with
    | factor hn' hb' =>
      rw [hn] at hn'; cases hn'
      rw [hb] at hb'; cases hb'
      rfl
    | noFormula hn' hf' _ =>
      rw [hn] at hn'; cases hn'
      exact absurd hf' (not_isFormula_of_factor hb)
    | ambiguous hn' hs' _ | formula hn' hs' _ _ =>
      rw [hn] at hn'; cases hn'
      rw [source?_of_factor hb] at hs'; cases hs'
  | noFormula hn hf hs =>
    cases h₂ with
    | factor hn' hb' =>
      rw [hn] at hn'; cases hn'
      exact absurd hf (not_isFormula_of_factor hb')
    | noFormula hn' _ _ => rw [hn] at hn'; cases hn'; rfl
    | ambiguous hn' hs' _ | formula hn' hs' _ _ =>
      rw [hn] at hn'; cases hn'
      rw [hs] at hs'; cases hs'
  | ambiguous hn hs hd =>
    cases h₂ with
    | factor hn' hb' =>
      rw [hn] at hn'; cases hn'
      rw [source?_of_factor hb'] at hs; cases hs
    | noFormula hn' _ hs' =>
      rw [hn] at hn'; cases hn'
      rw [hs] at hs'; cases hs'
    | ambiguous hn' _ _ => rw [hn] at hn'; cases hn'; rfl
    | formula hn' _ hd' _ => rw [hn] at hn'; cases hn'; exact absurd hd' hd
  | formula hn hs hd _ ih =>
    cases h₂ with
    | factor hn' hb' =>
      rw [hn] at hn'; cases hn'
      rw [source?_of_factor hb'] at hs; cases hs
    | noFormula hn' _ hs' =>
      rw [hn] at hn'; cases hn'
      rw [hs] at hs'; cases hs'
    | ambiguous hn' _ hd' => rw [hn] at hn'; cases hn'; exact absurd hd hd'
    | formula hn' hs' _ hc' =>
      rw [hn] at hn'; cases hn'
      rw [hs] at hs'; cases hs'
      exact formulaOutcome_congr fun c hc hex => ih c hc hex (hc' c hc hex)

/-- The clauses of `ownOutcome` are those of `Denotes`. -/
theorem denotes_ownOutcome {id : Text} {n : Node α} {outcome : Text → Outcome α}
    (hn : nodes.get? id = some n)
    (hc : ∀ c, Link nodes id c → Denotes nodes c (outcome c)) :
    Denotes nodes id (ownOutcome nodes n outcome) := by
  unfold ownOutcome
  cases hb : n.body with
  | factor v => exact .factor hn hb
  | formula expression =>
    have hf : n.isFormula = true := by simp [Node.isFormula, Node.kind, hb]
    cases hs : n.source? with
    | none => exact .noFormula hn hf hs
    | some source =>
      by_cases hd : DistinctNames nodes n.children
      · simp only [sharedNames_eq_nil_iff.2 hd]
        exact .formula hn hs hd fun c hchild hex => hc c ⟨n, hn, hf, hchild, hex⟩
      · have := Denotes.ambiguous hn hs hd
        cases hnames : sharedNames nodes n.children with
        | nil => exact absurd (sharedNames_eq_nil_iff.1 hnames) hd
        | cons x rest => simpa only [hnames] using this

/-- Along a path of nodes that lead to it, a node with no cycle below it denotes its outcome. -/
theorem denotes_outcomeAlong (path : List Text) {id : Text} (hid : nodes.contains id = true)
    (hacyclic : AcyclicBelow nodes id)
    (hpath : ∀ p ∈ path, Relation.TransGen (Link nodes) p id) :
    Denotes nodes id (outcomeAlong nodes path id) := by
  induction path, id using walk_induction nodes with
  | step path id ih =>
    obtain ⟨n, hn⟩ := (nodes.contains_eq_true_iff id).1 hid
    have hmem : id ∉ path := fun h => hacyclic id .refl (hpath id h)
    rw [outcomeAlong_of_get? hn hmem]
    refine denotes_ownOutcome hn fun c hlink => ih n hn hmem c ?_ ?_ ?_
    · obtain ⟨_, _, _, _, hex⟩ := hlink
      exact hex
    · exact fun m hm => hacyclic m (.head hlink hm)
    · exact transGen_cons hlink hpath

/-- A success denotes, also where there are cycles elsewhere. -/
theorem denotes_of_outcomeAlong_eq_ok {path : List Text} {id : Text} {v : α}
    (h : outcomeAlong nodes path id = .ok v) : Denotes nodes id (.ok v) := by
  induction path, id using walk_induction nodes generalizing v with
  | step path id ih =>
    obtain ⟨n, hn, hmem, hown⟩ := of_outcomeAlong_eq_ok h
    rw [← hown]
    refine denotes_ownOutcome hn fun c hlink => ?_
    obtain ⟨w, hw⟩ := ok_of_mem_visited hown (mem_visited_of_ok hn hown hlink)
    rw [hw]
    exact ih n hn hmem c hw

/-- **Evaluation is denotation.** -/
theorem evaluate_eq_iff_denotes (r : Registry α) {id : Text} (hid : r.nodes.contains id = true)
    (hacyclic : AcyclicBelow r.nodes id) :
    (∀ o, (r.evaluate id).1 = o ↔ Denotes r.nodes id o) ∧
    (∀ r' : Registry α, SameMeaning r.nodes r'.nodes → (r'.evaluate id).1 = (r.evaluate id).1) ∧
    (∀ v, (r.evaluate id).1 = .ok v → ∀ m, Reaches r.nodes id m →
      ∃ w n, Denotes r.nodes m (.ok w) ∧ (r.evaluate id).2.node? m = some n ∧
        n.computed = some w) := by
  have hdenotes := denotes_outcomeAlong [] hid hacyclic (by simp)
  simp only [evaluate_eq]
  refine ⟨fun o => ⟨fun h => h ▸ hdenotes, fun h => hdenotes.unique h⟩, ?_, ?_⟩
  · intro r' h
    exact (outcomeAlong_congr h [] id).symm
  · intro v hv m hm
    obtain ⟨w, hw⟩ := mem_traceAlong_of_reaches hv hm
    have hm := mem_traceAlong hw
    obtain ⟨n, hn, -, -⟩ := of_outcomeAlong_eq_ok hm
    refine ⟨w, { n with computed := some w }, denotes_of_outcomeAlong_eq_ok hm, ?_, rfl⟩
    have hnode : r.node? m = some n := hn
    rw [node?_write, hnode, lookup_traceAlong hw]
    rfl

/-- Three formulas over one factor, with two formulas between it and the top. Two of the cached
values are stale, the others are missing. -/
def diamond : Registry Exact where
  nodes := .ofList
    [("a", ⟨"a", "a", .factor (.value 3), [], ["b", "c"], some (.value 8), .null, .null⟩),
     ("b", ⟨"b", "b", .formula (some "a + 1"), [.text "a"], ["d"], some (.value 7), .null, .null⟩),
     ("c", ⟨"c", "c", .formula (some "2 * a"), [.text "a"], ["d"], none, .null, .null⟩),
     ("d", ⟨"d", "d", .formula (some "b + c"), [.text "b", .text "c"], [], none, .null, .null⟩)]
  roots := ["d"]

theorem acyclicBelow_diamond : AcyclicBelow diamond.nodes "d" :=
  acyclicBelow_of_rank (fun id => if id = "d" then 2 else if id = "a" then 0 else 1)
    (by decide +kernel) "d"

theorem denotes_diamond :
    diamond.nodes.contains "d" = true ∧ AcyclicBelow diamond.nodes "d" ∧
    (diamond.evaluate "d").1 = .ok (.value 10) ∧ Denotes diamond.nodes "d" (.ok (.value 10)) := by
  have hvalue : (diamond.evaluate "d").1 = .ok (.value 10) := by decide +kernel
  have hd : diamond.nodes.contains "d" = true := by decide +kernel
  exact ⟨hd, acyclicBelow_diamond, hvalue,
    ((evaluate_eq_iff_denotes diamond hd acyclicBelow_diamond).1 _).1 hvalue⟩

end FormulaGraph.Registry
