import FormulaGraph.Number.Float
import FormulaGraph.Proofs.Evaluation.Roots
import FormulaGraph.Proofs.Expr.Evaluation
import FormulaGraph.Proofs.Registry.Assigned
import FormulaGraph.Proofs.Registry.Interrupted
import FormulaGraph.Proofs.Registry.Runs
/-!
# Computed values over runs

A factor may be given any number, an infinity or an undefined one included, and formulas compute
with it. The value of an expression is always a finite number, and a formula that fails keeps what
it had; so no run ever leaves anything else in a formula. The computed value of a factor is stored
together with its value, and what an evaluation writes there is that value again.

* `Node.WellCached`: what may be stored in a node as its computed value.
* `WellCached.write`: an evaluation writes outcomes, and these may be stored.
* `WellCached.call`: one call, whatever it gives as its result.
* `calls_wellCached`: a whole run from the empty registry, with ids fresh or not.
-/
namespace FormulaGraph

variable {α : Type} [Scalar α]

/-- A factor has its value as the computed value, a formula a finite number or nothing. -/
def Node.WellCached (n : Node α) : Prop :=
  match n.body with
  | .factor v => n.computed = some v
  | .formula _ => ∀ v, n.computed = some v → Scalar.isFinite v = true

/-- A call that changes a registry, or one that evaluates many nodes. -/
inductive Call (α : Type) where
  | operation (op : Operation α)
  | evaluateRoots
  | evaluateDependents (id : Text)

omit [Scalar α] in
theorem Node.exists_of_kind_eq_factor {n : Node α} (h : n.kind = .factor) :
    ∃ v, n.body = .factor v := by
  cases hbody : n.body with
  | factor v => exact ⟨v, rfl⟩
  | formula e => simp [kind, hbody] at h

omit [Scalar α] in
theorem Node.exists_of_kind_eq_formula {n : Node α} (h : n.kind = .formula) :
    ∃ e, n.body = .formula e := by
  cases hbody : n.body with
  | factor v => simp [kind, hbody] at h
  | formula e => exact ⟨e, rfl⟩

/-- A formula may have another expression over the same computed value. -/
theorem Node.WellCached.applyExpression {n : Node α} (hn : n.WellCached) {c : Changes α}
    (h : n.kind = .factor → c.expression = none) : (c.applyExpression n).WellCached := by
  unfold Changes.applyExpression
  cases hexpression : c.expression with
  | none => exact hn
  | some e =>
    have hformula : n.kind = .formula := by
      cases hkind : n.kind with
      | factor => exact absurd (h hkind) (by simp [hexpression])
      | formula => rfl
    obtain ⟨e', hbody⟩ := Node.exists_of_kind_eq_formula hformula
    simp only [Node.WellCached, hbody] at hn
    exact hn

namespace Registry

/-- Every node has a computed value that it may have. -/
def WellCached (r : Registry α) : Prop := ∀ id n, r.node? id = some n → n.WellCached

theorem wellCached_empty : WellCached (empty : Registry α) := by
  intro id n h
  simp [empty, node?] at h

/-- Parents are not read. -/
theorem WellCached.of_agreeOn {r r' : Registry α} (hr : WellCached r)
    (h : AgreeOn Node.alone r r') : WellCached r' := by
  intro id n hn
  obtain ⟨m, hm, halone⟩ := h.node? hn
  have hbody : m.body = n.body := congrArg (·.body) halone
  have hcomputed : m.computed = n.computed := congrArg (·.computed) halone
  have hcached := hr id m hm
  rw [Node.WellCached, hbody, hcomputed] at hcached
  exact hcached

theorem WellCached.modify {r : Registry α} (hr : WellCached r) {k : Text} {f : Node α → Node α}
    (h : ∀ n, r.node? k = some n → n.WellCached → (f n).WellCached) :
    WellCached (r.modify k f) := by
  intro id n hn
  rw [node?_modify] at hn
  split at hn
  · rename_i hid
    subst hid
    obtain ⟨m, hm, rfl⟩ := Option.map_eq_some_iff.1 hn
    exact h m hm (hr id m hm)
  · exact hr id n hn

/-! ## Evaluations -/

theorem isFinite_of_evaluateExpression {source : Text} {ctx : Context α} {v : α}
    (h : evaluateExpression source ctx = .ok v) : Scalar.isFinite v = true := by
  unfold evaluateExpression at h
  split at h
  · cases h
  · split at h
    · cases h
    · rename_i w hw
      obtain rfl := Except.ok.inj h
      rw [Scalar.isFinite, Expr.special?_of_evaluate_eq_ok hw, Option.isNone_none]

/-- A node may have its outcome as the computed value. -/
theorem wellCached_of_ownOutcome {nodes : OrderedMap Text (Node α)} {n : Node α}
    {outcome : Text → Outcome α} {v : α} (h : ownOutcome nodes n outcome = .ok v) :
    ({ n with computed := some v } : Node α).WellCached := by
  cases hbody : n.body with
  | factor w =>
    simp only [ownOutcome, hbody] at h
    simp only [Node.WellCached, Except.ok.inj h]
  | formula e =>
    simp only [Node.WellCached]
    rintro w ⟨⟩
    simp only [ownOutcome, hbody] at h
    split at h
    · cases h
    · rename_i source hsource
      split at h
      · unfold formulaOutcome at h
        split at h
        · cases h
        · cases hvalue : evaluateExpression source (childContext nodes n.children outcome) with
          | error e =>
            rw [hvalue] at h
            cases h
          | ok w =>
            rw [hvalue] at h
            obtain rfl := Except.ok.inj h
            exact isFinite_of_evaluateExpression hvalue
      · cases h

/-- What is noted are outcomes, so all of it may be written. -/
theorem WellCached.write {r : Registry α} (hr : WellCached r) {notes : Notes α}
    (h : ∀ m v, (m, v) ∈ notes → outcomeAlong r.nodes [] m = .ok v) :
    WellCached (r.write notes) := by
  intro id n' hn'
  rw [node?_write] at hn'
  obtain ⟨n, hn, rfl⟩ := Option.map_eq_some_iff.1 hn'
  cases hl : notes.lookup id with
  | none => exact hr id n hn
  | some v =>
    have hout := h id v ((lookup_eq_some_iff_mem h).1 hl)
    rw [outcomeAlong_of_get? hn List.not_mem_nil] at hout
    exact wellCached_of_ownOutcome hout

theorem WellCached.evaluateVisiting {r : Registry α} (hr : WellCached r) (path : List Text)
    (id : Text) : WellCached (r.evaluateVisiting path id).2 := by
  rw [evaluateVisiting_eq]
  exact hr.write fun _ _ => mem_traceAlong

theorem WellCached.evaluate {r : Registry α} (hr : WellCached r) (id : Text) :
    WellCached (r.evaluate id).2 := hr.evaluateVisiting [] id

theorem WellCached.evaluateEach {r : Registry α} (hr : WellCached r) (ids : List Text) :
    WellCached (r.evaluateEach ids).2 := by
  rw [evaluateEach_eq]
  refine hr.write fun m v hv => ?_
  obtain ⟨id, -, hid⟩ := mem_traces.1 hv
  exact mem_traceAlong hid

/-! ## Call by call -/

theorem WellCached.create {r : Registry α} (hr : WellCached r) {n : Node α} (hn : n.WellCached) :
    WellCached (r.create n) := by
  have hstored : WellCached (r.store n) := by
    intro id m hm
    rw [node?_store] at hm
    split at hm
    · obtain rfl := Option.some.inj hm
      exact hn
    · exact hr.of_agreeOn (agreeOn_adopt r n.id n.children) id m hm
  unfold Registry.create
  cases n.kind with
  | factor => exact hstored
  | formula => exact hstored.evaluate n.id

theorem WellCached.addChild {r : Registry α} (hr : WellCached r) (parent child : Text) :
    WellCached (r.addChild parent child).2 := by
  unfold Registry.addChild
  split
  · exact hr
  · split
    · exact hr
    · split
      · exact hr
      · have hlinked : WellCached (r.modify parent (·.addChild child)) :=
          hr.modify fun _ _ hn => hn
        exact (hlinked.of_agreeOn (agreeOn_adopt _ parent [child])).evaluate parent

theorem WellCached.unlink {r : Registry α} (hr : WellCached r) (parent child : Text) :
    WellCached (r.unlink parent child) := by
  have hdropped : WellCached (r.modify parent (·.dropChild child)) := hr.modify fun _ _ hn => hn
  exact hdropped.of_agreeOn (agreeOn_disown _ parent [child])

theorem WellCached.removeChild {r : Registry α} (hr : WellCached r) (parent child : Text) :
    WellCached (r.removeChild parent child).2 := by
  unfold Registry.removeChild
  split
  · exact hr
  · split
    · exact hr
    · dsimp only
      split
      · exact (hr.unlink parent child).evaluate parent
      · exact hr.unlink parent child

theorem WellCached.removeFrom {r : Registry α} (hr : WellCached r) (parents : List Text)
    (child : Text) : WellCached (r.removeFrom parents child).2 := by
  induction parents generalizing r with
  | nil => exact hr
  | cons parent parents ih =>
    rw [removeFrom_cons]
    exact ih (hr.removeChild parent child)

theorem WellCached.delete {r : Registry α} (hr : WellCached r) (id : Text) :
    WellCached (r.delete id).2 := by
  rcases delete_cases r id with ⟨-, h⟩ | ⟨-, h⟩
  · rwa [h]
  · rw [h]
    intro k n hn
    rw [node?_forget] at hn
    split at hn
    · cases hn
    · have hremoved := hr.removeFrom (r.listing id) id
      exact hremoved.of_agreeOn (agreeOn_disown _ id _) k n hn

/-- A factor takes its new value and its new computed value together. -/
theorem WellCached.setValue {r : Registry α} (hr : WellCached r) (id : Text) (v : α) :
    WellCached (r.setValue id v).2 := by
  have hassigned : WellCached (r.assign id v) := hr.modify fun _ _ _ => rfl
  exact hassigned.evaluateEach _

theorem WellCached.relink {r : Registry α} (hr : WellCached r) (key : Text) (n : Node α)
    (listed : List (Json α)) : WellCached (r.relink key n listed) := by
  rw [relink_eq]
  exact (hr.of_agreeOn (agreeOn_regroup r n _)).modify fun _ _ hn => hn

theorem WellCached.carried {r r' : Registry α} (hr : WellCached r) {id : Text} {n m : Node α}
    {c : Changes α} (hm : r.node? id = some m) (hkind : m.kind = n.kind)
    (h : Carried r id n c r') : WellCached r' := by
  have hrewritten (hformula : n.kind = .formula) : WellCached (r.modify id c.applyExpression) := by
    refine hr.modify fun k hk hcached => hcached.applyExpression fun hfactor => ?_
    obtain rfl := Option.some.inj (hm.symm.trans hk)
    cases hfactor.symm.trans (hkind.trans hformula)
  cases h with
  | kept => exact hr
  | valued => exact hr.setValue id _
  | rewritten hformula => exact (hrewritten hformula).evaluate id
  | relinked hformula => exact ((hrewritten hformula).relink id n _).evaluate id

/-- An update that is carried through, one that is rejected, and one that breaks off. -/
theorem WellCached.update {r : Registry α} (hr : WellCached r) (id : Text) (c : Changes α) :
    WellCached (r.update id c).2 := by
  have hrenamed : WellCached (r.modify id c.applyMetadata) := hr.modify fun _ _ hn => hn
  cases hresult : (r.update id c).1 with
  | ok evaluations =>
    obtain ⟨n, hn, hcarried⟩ := exists_carried hresult
    have hm : (r.modify id c.applyMetadata).node? id = some (c.applyMetadata n) := by
      rw [node?_modify, if_pos rfl, hn, Option.map_some]
    have hkind : (c.applyMetadata n).kind = n.kind := rfl
    exact hrenamed.carried hm hkind hcarried
  | error e =>
    cases e with
    | rejected f => rwa [update_of_rejected hresult]
    | unusable e =>
      obtain ⟨n, hn, haccepted, hunusable⟩ := update_eq_unusable_iff.1 hresult
      rw [update_of_unusable hn haccepted hunusable]
      refine hr.modify fun m hm hcached => ?_
      obtain rfl := Option.some.inj (hn.symm.trans hm)
      have hmetadata : (c.applyMetadata n).WellCached := hcached
      exact hmetadata.applyExpression fun hfactor => Changes.expression_of_factor haccepted hfactor

theorem WellCached.markRoot {r : Registry α} (hr : WellCached r) (id : Text) :
    WellCached (r.markRoot id).2 := by
  unfold Registry.markRoot
  split
  · exact hr
  · split
    · exact hr
    · exact hr

theorem WellCached.apply {r : Registry α} (hr : WellCached r) (op : Operation α) :
    WellCached (r.apply op) := by
  cases op with
  | createFactor => exact hr.create rfl
  | createFormula => exact hr.create nofun
  | addChild parent child => exact hr.addChild parent child
  | removeChild parent child => exact hr.removeChild parent child
  | update id changes => exact hr.update id changes
  | delete id => exact hr.delete id
  | markRoot id => exact hr.markRoot id
  | unmarkRoot => exact hr
  | clear => exact wellCached_empty
  | evaluate path id => exact hr.evaluateVisiting path id

/-! ## Runs -/

/-- The registry after a call, whatever the call gives as its result. -/
def call (r : Registry α) : Call α → Registry α
  | .operation op => r.apply op
  | .evaluateRoots => r.evaluateRoots.2
  | .evaluateDependents id => (r.evaluateDependents id).2

def calls (r : Registry α) (cs : List (Call α)) : Registry α := cs.foldl call r

theorem WellCached.call {r : Registry α} (hr : WellCached r) (c : Call α) :
    WellCached (r.call c) := by
  cases c with
  | operation op => exact hr.apply op
  | evaluateRoots => exact hr.evaluateEach r.roots
  | evaluateDependents id => exact hr.evaluateEach (r.dependents id)

theorem WellCached.calls {r : Registry α} (hr : WellCached r) (cs : List (Call α)) :
    WellCached (r.calls cs) := by
  induction cs generalizing r with
  | nil => exact hr
  | cons c cs ih => exact ih (hr.call c)

/-- **Computed values stay sane.** After every run from the empty registry a factor has its value as
the computed value, and a formula has a finite number or nothing. -/
theorem calls_wellCached (cs : List (Call α)) {id : Text} {n : Node α}
    (hn : ((empty : Registry α).calls cs).node? id = some n) :
    (∀ v, n.body = .factor v → n.computed = some v) ∧
    (∀ e v, n.body = .formula e → n.computed = some v → Scalar.isFinite v = true) := by
  have hcached := wellCached_empty.calls cs id n hn
  constructor
  · intro v hbody
    simpa only [Node.WellCached, hbody] using hcached
  · intro e v hbody hcomputed
    simp only [Node.WellCached, hbody] at hcached
    exact hcached v hcomputed

/-- A formula over an infinity, over 3, and over a number that is none. -/
def spiked : List (Call Float) :=
  [.operation (.createFactor "a" "a" (Scalar.ofSpecial .infinity) none none),
   .operation (.createFormula "f" "f" "a * 2" ["a"] none none),
   .operation (.update "a" { Changes.empty with value := some (.real 3) }),
   .operation (.markRoot "f"),
   .evaluateRoots,
   .operation (.update "a" { Changes.empty with value := some (.real Scalar.nan) })]

/-- The factor has the undefined number as its computed value, too, and the formula still has 6. -/
theorem calls_wellCached_spiked : ∃ a f v e,
    ((empty : Registry Float).calls spiked).node? "a" = some a ∧ a.body = .factor v ∧
    a.computed = some v ∧ Scalar.isFinite v = false ∧
    ((empty : Registry Float).calls spiked).node? "f" = some f ∧ f.body = .formula e ∧
    f.computed = some 6 ∧ Scalar.isFinite (6 : Float) = true := by
  have ha : (((empty : Registry Float).calls spiked).node? "a").map (·.kind) = some .factor := by
    decide +kernel
  have hnan : (((empty : Registry Float).calls spiked).node? "a").bind (·.computed) =
      some Scalar.nan := by decide +kernel
  have hf : (((empty : Registry Float).calls spiked).node? "f").map (·.kind) = some .formula := by
    decide +kernel
  have hsix : (((empty : Registry Float).calls spiked).node? "f").bind (·.computed) = some 6 := by
    decide +kernel
  obtain ⟨a, hgetA, hcomputedA⟩ := Option.bind_eq_some_iff.1 hnan
  obtain ⟨f, hgetF, hcomputedF⟩ := Option.bind_eq_some_iff.1 hsix
  rw [hgetA, Option.map_some, Option.some.injEq] at ha
  rw [hgetF, Option.map_some, Option.some.injEq] at hf
  obtain ⟨v, hv⟩ := Node.exists_of_kind_eq_factor ha
  obtain ⟨e, he⟩ := Node.exists_of_kind_eq_formula hf
  have hvalue : a.computed = some v := (calls_wellCached spiked hgetA).1 v hv
  have hfinite : Scalar.isFinite (6 : Float) = true :=
    (calls_wellCached spiked hgetF).2 e 6 he hcomputedF
  obtain rfl : Scalar.nan = v := Option.some.inj (hcomputedA.symm.trans hvalue)
  exact ⟨a, f, _, e, hgetA, hv, hvalue, by decide +kernel, hgetF, he, hcomputedF, hfinite⟩

end Registry

end FormulaGraph
