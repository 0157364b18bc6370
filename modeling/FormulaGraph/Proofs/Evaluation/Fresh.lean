import FormulaGraph.Proofs.Evaluation.Frame
/-!
# Values that are up to date

A node is current when its computed value is the one that its evaluation would give; nothing is
asked of a node whose evaluation would fail. A registry is fresh when all of its nodes are current.

An evaluation changes nothing that evaluation reads (`AgreeOn.sameMeaning`), and all it writes is
what the nodes have on their own. So a current node stays current through any number of evaluations,
in any order, and a node that one of them comes to (`Renews`) is current from then on.

* `Current.evaluateEach`: evaluations keep a node current.
* `current_evaluateEach`: they make a node current that one of them renews.
-/
namespace FormulaGraph

theorem Node.meaning_eq_of_unevaluated_eq {α : Type} {n m : Node α}
    (h : n.unevaluated = m.unevaluated) : n.meaning = m.meaning := by
  simp only [Node.unevaluated, Node.mk.injEq] at h
  obtain ⟨-, hname, hbody, hlisted, -⟩ := h
  simp only [Node.meaning, Node.children, hname, hbody, hlisted]

namespace Registry

variable {α : Type}

theorem AgreeOn.sameMeaning {r r' : Registry α} (h : AgreeOn Node.unevaluated r r') :
    SameMeaning r.nodes r'.nodes :=
  fun id => ((h.mono fun _ _ => Node.meaning_eq_of_unevaluated_eq).nodes id).symm

variable [Scalar α]

/-- The node under an id has the value that its evaluation would give, if that succeeds. -/
def Current (r : Registry α) (id : Text) : Prop :=
  ∀ n v, r.node? id = some n → (r.evaluate id).1 = .ok v → n.computed = some v

/-- Every node is current. -/
def Fresh (r : Registry α) : Prop := ∀ id, Current r id

/-- Whether the entry of a table is current. -/
def isCurrent [DecidableEq α] (r : Registry α) (id : Text) (n : Node α) : Bool :=
  match (r.evaluate id).1 with
  | .ok v => n.computed = some v
  | .error _ => true

theorem fresh_iff_entries [DecidableEq α] {r : Registry α} :
    Fresh r ↔ ∀ e ∈ r.nodes.entries, r.isCurrent e.1 e.2 = true := by
  constructor
  · rintro h ⟨id, n⟩ he
    have hn : r.node? id = some n := OrderedMap.get?_eq_some_iff.2 he
    unfold isCurrent
    split
    · rename_i v hv
      exact decide_eq_true (h id n v hn hv)
    · rfl
  · intro h id n v hn hv
    have := h (id, n) (OrderedMap.get?_eq_some_iff.1 hn)
    simpa [isCurrent, hv] using this

instance [DecidableEq α] (r : Registry α) : Decidable (Fresh r) :=
  decidable_of_iff _ fresh_iff_entries.symm

/-- When `m` succeeds on its own, an evaluation of `id` comes to it and notes its value. -/
def Renews (nodes : OrderedMap Text (Node α)) (id m : Text) : Prop :=
  ∀ v, outcomeAlong nodes [] m = .ok v → (m, v) ∈ traceAlong nodes [] id

theorem renews_self (nodes : OrderedMap Text (Node α)) (id : Text) : Renews nodes id id :=
  fun _ hv => mem_traceAlong_self hv

theorem Renews.congr {nodes nodes' : OrderedMap Text (Node α)} {id m : Text}
    (h : Renews nodes id m) (hsame : SameMeaning nodes nodes') : Renews nodes' id m := by
  intro v hv
  rw [← outcomeAlong_congr hsame] at hv
  rw [← traceAlong_congr hsame]
  exact h v hv

/-! ## One evaluation -/

theorem AgreeOn.evaluate_eq {r r' : Registry α} (h : AgreeOn Node.unevaluated r r') (id : Text) :
    (r'.evaluate id).1 = (r.evaluate id).1 := by
  rw [Registry.evaluate_eq, Registry.evaluate_eq]
  exact (outcomeAlong_congr h.sameMeaning [] id).symm

theorem Current.evaluate {r : Registry α} {m : Text} (hm : Current r m) (id : Text) :
    Current (r.evaluate id).2 m := by
  intro n' v hn' hv
  rw [(agreeOn_evaluate r id).evaluate_eq] at hv
  obtain ⟨n, hn, -⟩ := (agreeOn_evaluate r id).node? hn'
  rcases node?_evaluate r id hn with hkept | ⟨w, hw, hnew⟩
  · obtain rfl := Option.some.inj (hkept.symm.trans hn')
    exact hm n v hn hv
  · obtain rfl := Option.some.inj (hnew.symm.trans hn')
    have hown : (r.evaluate m).1 = .ok w := evaluate_of_mem_traceAlong hw
    rw [hv] at hown
    cases hown
    rfl

theorem current_evaluate {r : Registry α} {id m : Text} (h : Renews r.nodes id m) :
    Current (r.evaluate id).2 m := by
  intro n' v hn' hv
  rw [(agreeOn_evaluate r id).evaluate_eq, evaluate_eq] at hv
  have hnoted := lookup_traceAlong (h v hv)
  rw [evaluate_eq, node?_write, hnoted] at hn'
  obtain ⟨n, -, rfl⟩ := Option.map_eq_some_iff.1 hn'
  rfl

/-! ## Several evaluations -/

theorem evaluateEach_eq_foldl (r : Registry α) (ids : List Text) :
    (r.evaluateEach ids).2 = ids.foldl (fun r id => (r.evaluate id).2) r := by
  unfold evaluateEach
  generalize (OrderedMap.empty : Evaluations α) = evaluations
  induction ids generalizing r evaluations with
  | nil => rfl
  | cons id ids ih => exact ih _ _

theorem evaluateEach_cons (r : Registry α) (id : Text) (ids : List Text) :
    (r.evaluateEach (id :: ids)).2 = ((r.evaluate id).2.evaluateEach ids).2 := by
  rw [evaluateEach_eq_foldl, evaluateEach_eq_foldl, List.foldl_cons]

theorem Current.evaluateEach {r : Registry α} {m : Text} (hm : Current r m) (ids : List Text) :
    Current (r.evaluateEach ids).2 m := by
  induction ids generalizing r with
  | nil => exact hm
  | cons id ids ih =>
    rw [evaluateEach_cons]
    exact ih (hm.evaluate id)

theorem current_evaluateEach {r : Registry α} {id m : Text} {ids : List Text} (hid : id ∈ ids)
    (h : Renews r.nodes id m) : Current (r.evaluateEach ids).2 m := by
  induction ids generalizing r with
  | nil => cases hid
  | cons first ids ih =>
    rw [evaluateEach_cons]
    rcases List.mem_cons.1 hid with rfl | hid
    · exact (current_evaluate h).evaluateEach ids
    · exact ih hid (h.congr (agreeOn_evaluate r first).sameMeaning)

end Registry

end FormulaGraph
