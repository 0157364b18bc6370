import FormulaGraph.Number.Exact
import FormulaGraph.Proofs.Registry.Typed
/-!
# Runs

A run is a list of calls on a registry that begins empty. A call may be rejected; a child may be
missing, a node its own child, and links may form cycles. The only condition is on the ids of new
nodes: each is fresh when it is drawn (`FreshRun`).

**Results.**
* `consistent_run`: a run keeps a registry consistent.
* `typed_run`: if every update gives a list of ids as the children, then lists of children hold ids
  and nothing else.
* `run_links_agree`: both of them, from the empty registry.
-/
namespace FormulaGraph

/-- A call on a registry; a creation comes with the id that is drawn for the new node. -/
inductive Operation (α : Type) where
  | createFactor (id name : Text) (value : α) (description unit : Option Text)
  | createFormula (id name expression : Text) (children : List Text)
      (description unit : Option Text)
  | addChild (parent child : Text)
  | removeChild (parent child : Text)
  | update (id : Text) (changes : Changes α)
  | delete (id : Text)
  | markRoot (id : Text)
  | unmarkRoot (id : Text)
  | clear
  | evaluate (path : List Text) (id : Text)

/-- An update gives children as a list of ids. -/
def Operation.GivesIds {α : Type} : Operation α → Prop
  | .update _ changes => changes.GivesIds
  | _ => True

namespace Registry

variable {α : Type}

/-- The id of a new node is fresh, and the node does not list it either. -/
def Draws (r : Registry α) : Operation α → Prop
  | .createFactor id .. => r.IsFresh id
  | .createFormula id _ _ children .. => r.IsFresh id ∧ id ∉ children
  | _ => True

instance (r : Registry α) (id : Text) : Decidable (r.IsFresh id) :=
  decidable_of_iff (r.nodes.contains id = false ∧ r.listing id = [])
    ⟨fun ⟨hfree, hnone⟩ => ⟨hfree, fun _ h => by simpa [hnone] using mem_listing h⟩,
      fun ⟨hfree, hnone⟩ => ⟨hfree, List.eq_nil_iff_forall_not_mem.2 fun p h =>
        hnone p (mem_childIds_of_mem_listing h)⟩⟩

instance (r : Registry α) : (op : Operation α) → Decidable (r.Draws op)
  | .createFactor id .. => inferInstanceAs (Decidable (r.IsFresh id))
  | .createFormula id _ _ children .. => inferInstanceAs (Decidable (r.IsFresh id ∧ id ∉ children))
  | .addChild .. | .removeChild .. | .update .. | .delete _ | .markRoot _ | .unmarkRoot _ | .clear
  | .evaluate .. => inferInstanceAs (Decidable True)

variable [Scalar α]

/-- The registry after a call, whatever the call gives as its result. -/
def apply (r : Registry α) : Operation α → Registry α
  | .createFactor id name value description unit => r.createFactor id name value description unit
  | .createFormula id name expression children description unit =>
    r.createFormula id name expression children description unit
  | .addChild parent child => (r.addChild parent child).2
  | .removeChild parent child => (r.removeChild parent child).2
  | .update id changes => (r.update id changes).2
  | .delete id => (r.delete id).2
  | .markRoot id => (r.markRoot id).2
  | .unmarkRoot id => r.unmarkRoot id
  | .clear => .empty
  | .evaluate path id => (r.evaluateVisiting path id).2

def run (r : Registry α) (ops : List (Operation α)) : Registry α := ops.foldl apply r

/-- Every id that is drawn during a run is fresh at that moment. -/
def FreshRun : Registry α → List (Operation α) → Prop
  | _, [] => True
  | r, op :: ops => r.Draws op ∧ FreshRun (r.apply op) ops

instance : (r : Registry α) → (ops : List (Operation α)) → Decidable (r.FreshRun ops)
  | _, [] => inferInstanceAs (Decidable True)
  | r, op :: ops =>
    have : Decidable ((r.apply op).FreshRun ops) := instDecidableFreshRun (r.apply op) ops
    inferInstanceAs (Decidable (r.Draws op ∧ (r.apply op).FreshRun ops))

theorem Consistent.apply {r : Registry α} (hr : Consistent r) {op : Operation α}
    (h : r.Draws op) : Consistent (r.apply op) := by
  cases op with
  | createFactor id name value description unit =>
    exact hr.createFactor h name value description unit
  | createFormula id name expression children description unit =>
    exact hr.createFormula h.1 name expression h.2 description unit
  | addChild parent child => exact hr.addChild parent child
  | removeChild parent child => exact hr.removeChild parent child
  | update id changes => exact hr.update id changes
  | delete id => exact hr.delete id
  | markRoot id => exact hr.markRoot id
  | unmarkRoot id => exact hr.unmarkRoot id
  | clear => exact consistent_empty
  | evaluate path id => exact hr.of_agreeOn (agreeOn_evaluateVisiting r path id).links

theorem consistent_run {r : Registry α} (hr : Consistent r) {ops : List (Operation α)}
    (h : r.FreshRun ops) : Consistent (r.run ops) := by
  induction ops generalizing r with
  | nil => exact hr
  | cons op ops ih => exact ih (hr.apply h.1) h.2

theorem Typed.apply {r : Registry α} (hr : Typed r) {op : Operation α} (h : op.GivesIds) :
    Typed (r.apply op) := by
  cases op with
  | createFactor => exact hr.create fun _ hv => absurd hv List.not_mem_nil
  | createFormula => exact hr.create (Json.allTexts_map_text _)
  | addChild parent child => exact hr.addChild parent child
  | removeChild parent child => exact hr.removeChild parent child
  | update id changes => exact hr.update id h
  | delete id => exact hr.delete id
  | markRoot id => exact hr.markRoot id
  | unmarkRoot => exact hr
  | clear => exact typed_empty
  | evaluate path id => exact hr.of_agreeOn (agreeOn_evaluateVisiting r path id).links.own

theorem typed_run {r : Registry α} (hr : Typed r) {ops : List (Operation α)}
    (h : ∀ op ∈ ops, op.GivesIds) : Typed (r.run ops) := by
  induction ops generalizing r with
  | nil => exact hr
  | cons op ops ih =>
    obtain ⟨hop, hops⟩ := List.forall_mem_cons.1 h
    exact ih (hr.apply hop) hops

/-- **Links agree.** After every run from the empty registry with fresh ids, the recorded parents of
a node are the nodes that list it, factors list nothing, and no list has an id twice. -/
theorem run_links_agree {ops : List (Operation α)} (h : (empty : Registry α).FreshRun ops) :
    Consistent ((empty : Registry α).run ops) ∧
      ((∀ op ∈ ops, op.GivesIds) → ∀ id n, ((empty : Registry α).run ops).node? id = some n →
        n.listed = n.children.map .text) := by
  refine ⟨consistent_run consistent_empty h, fun hids id n hn => ?_⟩
  exact (typed_run typed_empty hids).listed_eq hn

/-- A run with a missing child, a node that is its own child, and a child taken out again. -/
def tangled : List (Operation Exact) :=
  [.createFormula "a" "sum" "x + sum" ["z", "z"] none none,
   .createFactor "x" "x" (.value 1) none none,
   .addChild "a" "x",
   .addChild "a" "a",
   .addChild "x" "a",
   .update "a" { Changes.empty with children := some (.list [.text "a", .text "x", .text "a"]) },
   .markRoot "a",
   .delete "x"]

theorem links_agree_tangled :
    (empty : Registry Exact).FreshRun tangled ∧ (∀ op ∈ tangled, op.GivesIds) ∧
    Consistent ((empty : Registry Exact).run tangled) ∧
    ((empty : Registry Exact).run tangled).childIds "a" = ["a"] ∧
    ((empty : Registry Exact).run tangled).parentIds "a" = ["a"] := by
  have hfresh : (empty : Registry Exact).FreshRun tangled := by decide +kernel
  have hids : ∀ op ∈ tangled, op.GivesIds := by
    simp only [tangled, List.forall_mem_cons, List.not_mem_nil, false_imp_iff, implies_true]
    refine ⟨trivial, trivial, trivial, trivial, trivial, ?_, trivial, trivial, trivial⟩
    rintro v ⟨⟩
    exact ⟨["a", "x", "a"], rfl⟩
  exact ⟨hfresh, hids, (run_links_agree hfresh).1, by decide +kernel, by decide +kernel⟩

end Registry

end FormulaGraph
