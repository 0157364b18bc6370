import FormulaGraph.Display.Tree
import FormulaGraph.Proofs.Evaluation.Outcome
import FormulaGraph.Proofs.Links.Acyclic
import FormulaGraph.Proofs.Registry.Typed
/-!
# Display trees without repetitions

A walk for display goes down through all children that exist, those of factors included, and stops
at a node that is on its own path. Where all that is listed exists and no node is below itself,
nothing stops it: the tree shows every list in full.

* `unfolds_display`: the tree of a node in such a registry.
-/
namespace FormulaGraph.Registry

open Links

variable {α : Type} {r : Registry α}

theorem displayAlong_of_none {id : Text} (hn : r.nodes.get? id = none) (path : List Text) :
    r.displayAlong path id = none := by
  rw [displayAlong]
  split <;> simp_all

theorem displayAlong_of_mem {path : List Text} {id : Text} {n : Node α}
    (hn : r.nodes.get? id = some n) (hpath : id ∈ path) :
    r.displayAlong path id = some (.branch n true []) := by
  rw [displayAlong]
  split <;> simp_all

theorem displayAlong_of_get? {path : List Text} {id : Text} {n : Node α}
    (hn : r.nodes.get? id = some n) (hpath : id ∉ path) :
    r.displayAlong path id =
      some (.branch n false (n.children.filterMap (r.displayAlong (id :: path)))) := by
  rw [displayAlong]
  split <;> simp_all

/-- The tree shows the node under an id, unmarked, and below it such a tree for every entry of its
list of children, in order. -/
inductive Unfolds (r : Registry α) : Text → DisplayTree α → Prop where
  | branch {id : Text} {n : Node α} {ids : List Text} {trees : List (DisplayTree α)}
    (hn : r.node? id = some n) (hlisted : n.listed = ids.map .text)
    (htrees : List.Forall₂ (Unfolds r) ids trees) : Unfolds r id (.branch n false trees)

theorem forall₂_filterMap {β γ : Type} {R : β → γ → Prop} {f : β → Option γ} {l : List β}
    (h : ∀ x ∈ l, ∃ y, f x = some y ∧ R x y) : List.Forall₂ R l (l.filterMap f) := by
  induction l with
  | nil => exact .nil
  | cons x l ih =>
    obtain ⟨y, hy, hR⟩ := h x List.mem_cons_self
    rw [List.filterMap_cons_some hy]
    exact .cons hR (ih fun z hz => h z (List.mem_cons_of_mem _ hz))

/-- Every entry in a list of children is the id of a node. -/
def Complete (r : Registry α) : Prop :=
  ∀ id n, r.node? id = some n → ∀ v ∈ n.listed, ∃ c, v = .text c ∧ r.nodes.contains c = true

theorem Complete.listed_eq (hr : Complete r) {id : Text} {n : Node α} (hn : r.node? id = some n) :
    n.listed = n.children.map .text := by
  refine Json.AllTexts.eq_map_text fun v hv => ?_
  obtain ⟨c, hc, -⟩ := hr id n hn v hv
  exact ⟨c, hc⟩

theorem Complete.contains (hr : Complete r) {id c : Text} {n : Node α} (hn : r.node? id = some n)
    (hc : c ∈ n.children) : r.nodes.contains c = true := by
  obtain ⟨c', hc', hex⟩ := hr id n hn (.text c) (Json.mem_textsAmong.1 hc)
  cases hc'
  exact hex

/-- Along a path of nodes that lead to it, a node is shown in full. -/
theorem unfolds_displayAlong (hr : Complete r)
    (hacyclic : ∀ id, ¬Relation.TransGen (Child (ofNodes r.nodes)) id id) (path : List Text)
    {id : Text} (hid : r.nodes.contains id = true)
    (hpath : ∀ p ∈ path, Relation.TransGen (Child (ofNodes r.nodes)) p id) :
    ∃ t, r.displayAlong path id = some t ∧ Unfolds r id t := by
  induction path, id using walk_induction r.nodes with
  | step path id ih =>
    obtain ⟨n, hn⟩ := contains_iff_node?.1 hid
    have hmem : id ∉ path := fun h => hacyclic id (hpath id h)
    refine ⟨_, displayAlong_of_get? hn hmem, .branch hn (hr.listed_eq hn) (forall₂_filterMap ?_)⟩
    intro c hc
    have hex := hr.contains hn hc
    have hchild : Child (ofNodes r.nodes) id c := child_ofNodes.2 ⟨n, hn, hc, hex⟩
    refine ih n hn hmem c hex fun p hp => ?_
    rcases List.mem_cons.1 hp with rfl | hp
    · exact .single hchild
    · exact (hpath p hp).tail hchild

theorem unfolds_display (hr : Complete r)
    (hacyclic : ∀ id, ¬Relation.TransGen (Child (ofNodes r.nodes)) id id) {id : Text}
    (hid : r.nodes.contains id = true) : ∃ t, r.display id = some t ∧ Unfolds r id t :=
  unfolds_displayAlong hr hacyclic [] hid (by simp)

end FormulaGraph.Registry
