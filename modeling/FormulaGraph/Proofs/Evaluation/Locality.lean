import FormulaGraph.Proofs.Evaluation.Walk
import FormulaGraph.Proofs.Expr.Evaluation
/-!
# What a value depends on

The value of a node is made of its recipe, which is its body and the children of a formula, and of
the names and values of its existing children. So a table may change elsewhere: a node keeps its
value where a set of nodes that is closed under links, with this node in it, keeps its recipes and
the names of its children (`Unmoved`).

Only success is local in this sense. The report of a failure names nodes, and a node that gets
another name fails with another report.

Where nodes lose children (`Fewer`), a node may succeed in one table and fail in the other, but it
does not have two values.
-/
namespace FormulaGraph

/-- What a node is evaluated from besides its children. A factor has a value whatever it lists. -/
def Node.recipe {α : Type} (n : Node α) : Body α × List Text :=
  match n.body with
  | .factor v => (.factor v, [])
  | .formula e => (.formula e, n.children)

namespace Registry

variable {α : Type} {nodes nodes' : OrderedMap Text (Node α)}

/-- From one table to another, the nodes of a set that no link leaves keep what they are evaluated
from. -/
structure Unmoved (nodes nodes' : OrderedMap Text (Node α)) (S : Text → Prop) : Prop where
  recipe : ∀ id, S id → (nodes'.get? id).map Node.recipe = (nodes.get? id).map Node.recipe
  names : ∀ id n, S id → nodes.get? id = some n → n.isFormula = true →
    SameNames nodes nodes' n.children
  closed : ∀ p c, S p → Link nodes p c → S c

/-- What is in one table is in the other, with more children or the same. -/
def Fewer (nodes nodes' : OrderedMap Text (Node α)) : Prop :=
  ∀ id n, nodes.get? id = some n → ∃ n', nodes'.get? id = some n' ∧
    n'.name = n.name ∧ n'.body = n.body ∧ n.children ⊆ n'.children

variable [Scalar α]

/-- A success does not show the name of the node. -/
theorem ownOutcome_eq_ok_congr {n n' : Node α} {f : Text → Outcome α} {v : α}
    (hrecipe : n'.recipe = n.recipe)
    (hnames : n.isFormula = true → SameNames nodes nodes' n.children)
    (h : ownOutcome nodes n f = .ok v) : ownOutcome nodes' n' f = .ok v := by
  unfold Node.recipe at hrecipe
  cases hb : n.body with
  | factor x =>
    have hb' : n'.body = .factor x := by
      cases hb' : n'.body <;> simp_all
    simp only [ownOutcome, hb] at h
    simp only [ownOutcome, hb', h]
  | formula e =>
    have hformula : n.isFormula = true := by simp [Node.isFormula, Node.kind, hb]
    have hsame : n'.body = .formula e ∧ n'.children = n.children := by
      cases hb' : n'.body <;> simp_all
    obtain ⟨hb', hchildren⟩ := hsame
    have hsource : n'.source? = n.source? := by simp [Node.source?, Node.expression?, hb, hb']
    have hnames := hnames hformula
    cases hs : n.source? with
    | none =>
      simp only [ownOutcome, hb, hs] at h
      cases h
    | some source =>
      cases hshared : sharedNames nodes n.children with
      | cons name rest =>
        simp only [ownOutcome, hb, hs, hshared] at h
        cases h
      | nil =>
        have hshared' := hnames.sharedNames.symm.trans hshared
        simp only [ownOutcome, hb, hs, hshared] at h
        simpa only [ownOutcome, hb', hsource, hs, hchildren, hshared',
          hnames.formulaOutcome] using h

/-- **Locality.** What succeeds in one table succeeds with the same value in the other. -/
theorem Unmoved.outcomeAlong_eq_ok {S : Text → Prop} (h : Unmoved nodes nodes' S)
    {path : List Text} {id : Text} {v : α} (hid : S id)
    (hok : outcomeAlong nodes path id = .ok v) : outcomeAlong nodes' path id = .ok v := by
  induction path, id using walk_induction nodes generalizing v with
  | step path id ih =>
    obtain ⟨n, hn, hpath, hown⟩ := of_outcomeAlong_eq_ok hok
    obtain ⟨n', hn', hrecipe⟩ : ∃ n', nodes'.get? id = some n' ∧ n'.recipe = n.recipe := by
      have := h.recipe id hid
      rw [hn, Option.map_some] at this
      exact Option.map_eq_some_iff.1 this
    have hchildren : ∀ c ∈ visited nodes n,
        outcomeAlong nodes (id :: path) c = outcomeAlong nodes' (id :: path) c := by
      intro c hc
      obtain ⟨w, hw⟩ := ok_of_mem_visited hown hc
      rw [hw, ih n hn hpath c (h.closed id c hid (link_of_mem_visited hn hc)) hw]
    rw [ownOutcome_congr hchildren] at hown
    rw [outcomeAlong_of_get? hn' hpath]
    exact ownOutcome_eq_ok_congr hrecipe (h.names id n hid hn) hown

/-! ## Fewer children -/

/-- A formula that succeeds has an expression with a value under the names of its children, which
are distinct and all succeed. -/
theorem exists_evaluate_of_ownOutcome {n : Node α} {f : Text → Outcome α} {v : α}
    {e : Option Text} (hb : n.body = .formula e) (h : ownOutcome nodes n f = .ok v) :
    ∃ source, n.source? = some source ∧ DistinctNames nodes n.children ∧
      (∀ c ∈ n.children, nodes.contains c = true → ∃ u, f c = .ok u) ∧
      ∃ expr : Expr α, parseExpression source = .ok expr ∧
        expr.evaluate (childContext nodes n.children f) = .ok v := by
  simp only [ownOutcome, hb] at h
  split at h
  · cases h
  · rename_i source hs
    split at h
    · rename_i hshared
      unfold formulaOutcome at h
      split at h
      · cases h
      · rename_i hfirst
        refine ⟨source, hs, sharedNames_eq_nil_iff.1 hshared, firstFailure_eq_none_iff.1 hfirst, ?_⟩
        unfold evaluateExpression at h
        split at h
        · cases h
        · rename_i expr hexpr
          refine ⟨expr, hexpr, ?_⟩
          split at h
          · cases h
          · rename_i u hu
            cases h
            exact hu
    · cases h

/-- Values do not differ between two such tables: where a child is missing that an expression
mentions, there is no value. -/
theorem Fewer.value_eq (h : Fewer nodes nodes') {path path' : List Text} {id : Text} {v w : α}
    (hv : outcomeAlong nodes path id = .ok v) (hw : outcomeAlong nodes' path' id = .ok w) :
    v = w := by
  induction path, id using walk_induction nodes generalizing path' v w with
  | step path id ih =>
    obtain ⟨n, hn, hpath, hown⟩ := of_outcomeAlong_eq_ok hv
    obtain ⟨n', hn', -, hown'⟩ := of_outcomeAlong_eq_ok hw
    obtain ⟨m, hm, -, hbody, hsub⟩ := h id n hn
    obtain rfl := Option.some.inj (hn'.symm.trans hm)
    cases hb : n.body with
    | factor x =>
      simp only [ownOutcome, hb] at hown
      simp only [ownOutcome, hbody, hb] at hown'
      cases hown
      cases hown'
      rfl
    | formula e =>
      obtain ⟨source, hs, hdistinct, hall, expr, hexpr, hvalue⟩ :=
        exists_evaluate_of_ownOutcome hb hown
      obtain ⟨source', hs', hdistinct', hall', expr', hexpr', hvalue'⟩ :=
        exists_evaluate_of_ownOutcome (hbody.trans hb) hown'
      have hsource : n'.source? = n.source? := by simp [Node.source?, Node.expression?, hbody]
      obtain rfl := Option.some.inj (hs.symm.trans (hsource.symm.trans hs'))
      obtain rfl := Except.ok.inj (hexpr.symm.trans hexpr')
      have hcontext : ∀ name ∈ expr.names,
          childContext nodes n.children (outcomeAlong nodes (id :: path)) name =
            childContext nodes' n'.children (outcomeAlong nodes' (id :: path')) name := by
        intro name hname
        obtain ⟨x, hx, -⟩ := Expr.exists_finite_of_evaluate_eq_ok hvalue name hname
        obtain ⟨c, hc, k, hk, hkname, hcx⟩ := (childContext_eq_some_iff hdistinct).1 hx
        obtain ⟨k', hk', hname', -, -⟩ := h c k hk
        obtain ⟨y, hcy⟩ := hall' c (hsub hc) ((nodes'.contains_eq_true_iff c).2 ⟨k', hk'⟩)
        have hxy : x = y := ih n hn hpath c hcx hcy
        rw [hx, eq_comm, childContext_eq_some_iff hdistinct']
        exact ⟨c, hsub hc, k', hk', hname'.trans hkname, hxy ▸ hcy⟩
      rw [Expr.evaluate_congr hcontext, hvalue'] at hvalue
      exact (Except.ok.inj hvalue).symm

end Registry

end FormulaGraph
