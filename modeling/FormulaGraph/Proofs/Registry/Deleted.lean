import FormulaGraph.Proofs.Evaluation.Frame
import FormulaGraph.Proofs.Registry.Runs
/-!
# What a deletion leaves

A deletion goes from parent to parent, takes one mention of the node from the children of each and
evaluates it, while the node is still there; then it takes one mention from the parents of each
child and one from the roots. Where the links of a registry agree and no list has an id twice, that
is every mention: each list is the old one with the id filtered out. A node that lists itself is
its own parent in the first part and has no link left in the second.

* `view_removeFrom`: what parents that are gone through lose, as far as it is seen in them.
* `removeFrom_listing`: the nodes when all parents have been gone through.
* `Consistent.isWithout_delete`: the registry after a deletion, up to computed values.
* `run_delete_filters`: after every run with fresh ids it is the old one without the node and
  without a mention of it.
-/
namespace FormulaGraph

variable {α : Type}

/-! ## One mention is every mention -/

theorem Json.eraseText_of_not_mem {t : Text} {items : List (Json α)} (h : t ∉ textsAmong items) :
    eraseText t items = items := by
  induction items with
  | nil => rfl
  | cons v rest ih =>
    cases v with
    | text s =>
      simp only [textsAmong, List.filterMap_cons, text?, List.mem_cons, not_or] at h
      rw [eraseText, if_neg (Ne.symm h.1), ih h.2]
    | _ => exact congrArg (_ :: ·) (ih h)

theorem Json.eraseText_eq_filter {t : Text} {items : List (Json α)} (h : (textsAmong items).Nodup) :
    eraseText t items = items.filter (·.text? ≠ some t) := by
  induction items with
  | nil => rfl
  | cons v rest ih =>
    cases v with
    | text s =>
      simp only [textsAmong, List.filterMap_cons, text?, List.nodup_cons] at h
      by_cases hs : s = t
      · -- the other items do not have the text again
        subst hs
        have hrest := ih h.2
        rw [eraseText_of_not_mem h.1] at hrest
        rw [eraseText, if_pos rfl, List.filter_cons_of_neg (by simp [text?]), ← hrest]
      · rw [eraseText, if_neg hs, List.filter_cons_of_pos (by simp [text?, hs]), ih h.2]
    | _ =>
      rw [List.filter_cons_of_pos (by simp [text?])]
      exact congrArg (_ :: ·) (ih h)

theorem erase_eq_filter {ts : List Text} (h : ts.Nodup) (t : Text) :
    ts.erase t = ts.filter (· ≠ t) := by
  rw [h.erase_eq_filter]
  exact List.filter_congr fun s _ => Bool.eq_iff_iff.2 (by simp)

namespace Node

/-- The node without any mention of an id among its links. -/
def without (n : Node α) (id : Text) : Node α :=
  { n with
    listed := n.listed.filter (·.text? ≠ some id)
    parents := n.parents.filter (· ≠ id) }

theorem not_mem_children_without (n : Node α) (id : Text) : id ∉ (n.without id).children := by
  intro h
  obtain ⟨v, hv, hid⟩ := List.mem_filterMap.1 h
  exact of_decide_eq_true (List.mem_filter.1 hv).2 hid

theorem not_mem_parents_without (n : Node α) (id : Text) : id ∉ (n.without id).parents := by
  simp [without]

theorem dropChild_of_not_mem {n : Node α} {id : Text} (h : id ∉ n.children) :
    n.dropChild id = n := by
  rw [dropChild, Json.eraseText_of_not_mem h]

theorem dropParent_of_not_mem {n : Node α} {id : Text} (h : id ∉ n.parents) :
    n.dropParent id = n := by
  rw [dropParent, List.erase_of_not_mem h]

theorem dropParent_dropChild {n : Node α} (hchildren : n.children.Nodup)
    (hparents : n.parents.Nodup) (id : Text) : (n.dropChild id).dropParent id = n.without id := by
  simp only [dropParent, dropChild, without, Json.eraseText_eq_filter hchildren,
    erase_eq_filter hparents]

end Node

namespace Registry

/-- The registry `r'` is `r` without a node and without any mention of it. Computed values may
differ. -/
structure IsWithout (r : Registry α) (id : Text) (r' : Registry α) : Prop where
  keys : r'.nodes.keys = r.nodes.keys.filter (· ≠ id)
  roots : r'.roots = r.roots.filter (· ≠ id)
  nodes : ∀ k n, k ≠ id → r.node? k = some n →
    ∃ n', r'.node? k = some n' ∧ n'.unevaluated = (n.without id).unevaluated

/-- No node is stored under an id, and no list has it. -/
structure Unmentioned (r : Registry α) (id : Text) : Prop where
  key : id ∉ r.nodes.keys
  root : id ∉ r.roots
  link : ∀ k n, r.node? k = some n → id ∉ n.children ∧ id ∉ n.parents

theorem IsWithout.unmentioned {r r' : Registry α} {id : Text} (h : IsWithout r id r') :
    Unmentioned r' id where
  key := by simp [h.keys]
  root := by simp [h.roots]
  link k n' hn' := by
    have hkey : k ∈ r.nodes.keys.filter (· ≠ id) := h.keys ▸ OrderedMap.mem_keys_of_get? hn'
    obtain ⟨hmem, hne⟩ := List.mem_filter.1 hkey
    obtain ⟨n, hn⟩ := contains_iff_node?.1 ((r.nodes.contains_iff k).2 hmem)
    obtain ⟨m, hm, heq⟩ := h.nodes k n (of_decide_eq_true hne) hn
    obtain rfl := Option.some.inj (hn'.symm.trans hm)
    have hlinks := Node.links_eq_of_unevaluated_eq heq
    simp only [Node.links, Node.own, Prod.mk.injEq] at hlinks
    obtain ⟨⟨-, -, hlisted⟩, hparents⟩ := hlinks
    rw [Node.children, hlisted, hparents]
    exact ⟨n.not_mem_children_without id, n.not_mem_parents_without id⟩

/-! ## The keys -/

theorem keys_unlink (r : Registry α) (parent child : Text) :
    (r.unlink parent child).nodes.keys = r.nodes.keys := by
  simp [unlink, modify]

theorem keys_disown (r : Registry α) (p : Text) (cs : List Text) :
    (r.disown p cs).nodes.keys = r.nodes.keys := by
  induction cs generalizing r with
  | nil => rfl
  | cons c cs ih => rw [disown_cons, ih, modify, OrderedMap.keys_modify]

theorem keys_forget (r : Registry α) (id : Text) :
    (r.forget id).nodes.keys = r.nodes.keys.filter (· ≠ id) := by
  rw [forget, OrderedMap.keys_erase, keys_disown]

theorem nodup_listing (r : Registry α) (child : Text) : (r.listing child).Nodup :=
  (List.filter_sublist.map _).nodup r.nodes.nodup

/-! ## The parents, one after the other -/

section

variable [Scalar α]

theorem keys_removeChild (r : Registry α) (parent child : Text) :
    (r.removeChild parent child).2.nodes.keys = r.nodes.keys := by
  unfold removeChild
  split
  · rfl
  · split
    · rfl
    · dsimp only
      split
      · exact (keys_write _ _).trans (keys_unlink r parent child)
      · exact keys_unlink r parent child

theorem keys_removeFrom (r : Registry α) (parents : List Text) (child : Text) :
    (r.removeFrom parents child).2.nodes.keys = r.nodes.keys := by
  induction parents generalizing r with
  | nil => rfl
  | cons parent parents ih => rw [removeFrom_cons, ih, keys_removeChild]

section

-- a view of nodes that does not show their computed values, nor the parents that the child loses
variable {β : Type} {f : Node α → β} {r : Registry α} {child k : Text}
  (hcomputed : ∀ n m : Node α, n.unevaluated = m.unevaluated → f n = f m)
  (hself : k = child → ∀ (n : Node α) (p : Text), f (n.dropParent p) = f n)

include hcomputed hself

/-- A node drops the child if it is the parent, and changes no further. -/
theorem view_removeChild (parent : Text) (hchild : r.nodes.contains child = true) :
    ((r.removeChild parent child).2.node? k).map f =
      ((r.node? k).map fun n => if k = parent then n.dropChild child else n).map f := by
  rcases removeChild_cases r parent child with h | ⟨h, hnot⟩
  · rw [map_eq_of_map_eq hcomputed (h.nodes k), unlink, node?_modify, node?_modify]
    split
    · rename_i hk
      have hunseen : (f ∘ fun n : Node α => n.dropParent parent) = f :=
        funext fun n => hself hk n parent
      rw [Option.map_map, hunseen]
      split <;> simp
    · split <;> simp
  · rw [h]
    split
    · rename_i hkp
      subst hkp
      cases hn : r.node? k with
      | none => rfl
      | some n =>
        have hchildren := hnot hchild
        rw [childIds_of_node? hn] at hchildren
        simp only [Option.map_some, Node.dropChild_of_not_mem hchildren]
    · simp

/-- Each of the parents drops the child. -/
theorem view_removeFrom
    (hdrop : ∀ n m : Node α, f n = f m → f (n.dropChild child) = f (m.dropChild child))
    {parents : List Text} (hparents : parents.Nodup) (hchild : r.nodes.contains child = true) :
    ((r.removeFrom parents child).2.node? k).map f =
      ((r.node? k).map fun n => if k ∈ parents then n.dropChild child else n).map f := by
  induction parents generalizing r with
  | nil => simp [removeFrom]
  | cons parent parents ih =>
    obtain ⟨hparent, hrest⟩ := List.nodup_cons.1 hparents
    have hkeys := keys_removeChild r parent child
    have hchild' : (r.removeChild parent child).2.nodes.contains child = true := by
      rw [OrderedMap.contains_iff, hkeys, ← OrderedMap.contains_iff]
      exact hchild
    rw [removeFrom_cons, ih hrest hchild']
    have hstep := view_removeChild hcomputed hself parent hchild
    by_cases hkp : k = parent
    · subst hkp
      simpa [hparent, Function.comp_def] using hstep
    · have hagain : ∀ n m : Node α, f n = f m →
          f (if k ∈ parents then n.dropChild child else n) =
            f (if k ∈ parents then m.dropChild child else m) := by
        intro n m heq
        split
        · exact hdrop n m heq
        · exact heq
      have := map_eq_of_map_eq (g := fun n : Node α =>
        f (if k ∈ parents then n.dropChild child else n)) hagain hstep
      simpa [hkp, Function.comp_def] using this

end

theorem node?_removeFrom {r : Registry α} {parents : List Text} {child k : Text}
    (hparents : parents.Nodup) (hchild : r.nodes.contains child = true) (hk : k ≠ child) :
    ((r.removeFrom parents child).2.node? k).map Node.unevaluated =
      ((r.node? k).map fun n => if k ∈ parents then n.dropChild child else n).map
        Node.unevaluated :=
  view_removeFrom (fun _ _ h => h) (fun h => absurd h hk)
    (fun _ _ h => congrArg (·.dropChild child) h) hparents hchild

/-- When all parents have been gone through, no other node lists the child. -/
theorem removeFrom_listing {r : Registry α} {child k : Text}
    (hchild : r.nodes.contains child = true) (hk : k ≠ child) :
    ((r.removeFrom (r.listing child) child).2.node? k).map Node.unevaluated =
      ((r.node? k).map (·.dropChild child)).map Node.unevaluated := by
  rw [node?_removeFrom (nodup_listing r child) hchild hk]
  split
  · rfl
  · rename_i hnot
    cases hn : r.node? k with
    | none => rfl
    | some n =>
      have hchildren : child ∉ n.children := by
        intro hmem
        rw [← childIds_of_node? hn] at hmem
        exact hnot (mem_listing hmem)
      simp only [Option.map_some, Node.dropChild_of_not_mem hchildren]

end

/-! ## The deletion -/

/-- Only children of a node have it recorded as a parent. -/
theorem Consistent.node?_forget {r : Registry α} (hr : Consistent r) {id k : Text} (hk : k ≠ id) :
    (r.forget id).node? k = (r.node? k).map (·.dropParent id) := by
  rw [Registry.node?_forget, if_neg hk, node?_disown_of_nodup r id (hr.children_nodup id)]
  split
  · rfl
  · rename_i hnot
    cases hn : r.node? k with
    | none => rfl
    | some n =>
      have hparents : id ∉ n.parents := by
        rw [← parentIds_of_node? hn, hr.mirrored k id (contains_iff_node?.2 ⟨n, hn⟩)]
        exact hnot
      rw [Option.map_some, Node.dropParent_of_not_mem hparents]

variable [Scalar α]

theorem Consistent.isWithout_delete {r : Registry α} (hr : Consistent r) {id : Text}
    (hid : r.nodes.contains id = true) : IsWithout r id (r.delete id).2 := by
  obtain ⟨hmissing, -⟩ | ⟨-, hdelete⟩ := delete_cases r id
  · rw [hid] at hmissing
    cases hmissing
  rw [hdelete]
  obtain ⟨hremoved, -⟩ := hr.removeFrom hid (r.listing id)
  refine ⟨?_, ?_, fun k n hk hn => ?_⟩
  · rw [keys_forget, keys_removeFrom]
  · rw [roots_forget, roots_removeFrom, erase_eq_filter hr.roots_nodup]
  · have hnode := removeFrom_listing hid hk
    rw [hn, Option.map_some, Option.map_some, Option.map_eq_some_iff] at hnode
    obtain ⟨m, hm, heq⟩ := hnode
    refine ⟨m.dropParent id, ?_, ?_⟩
    · rw [hremoved.node?_forget hk, hm, Option.map_some]
    · have hchildren : n.children.Nodup := childIds_of_node? hn ▸ hr.children_nodup k
      have hparents : n.parents.Nodup := parentIds_of_node? hn ▸ hr.parents_nodup k
      rw [← Node.dropParent_dropChild hchildren hparents id]
      exact congrArg (·.dropParent id) heq

/-- **Deletion.** After every run from the empty registry with fresh ids, a node that exists can be
deleted, and the registry is the old one without it: keys, roots and the links of the other nodes
are the old lists with its id filtered out, in their order, and nothing else has changed but
computed values. -/
theorem run_delete_filters {ops : List (Operation α)} (hops : (empty : Registry α).FreshRun ops)
    {id : Text} (hid : ((empty : Registry α).run ops).nodes.contains id = true) :
    (∃ evaluations, (((empty : Registry α).run ops).delete id).1 = .ok evaluations) ∧
    IsWithout ((empty : Registry α).run ops) id (((empty : Registry α).run ops).delete id).2 ∧
    Unmentioned (((empty : Registry α).run ops).delete id).2 id := by
  have hwithout := (consistent_run consistent_empty hops).isWithout_delete hid
  refine ⟨?_, hwithout, hwithout.unmentioned⟩
  obtain ⟨n, hn⟩ := contains_iff_node?.1 hid
  rw [delete, hn]
  exact ⟨_, rfl⟩

/-- A formula that needs itself and a missing node, another that needs it and that it needs, a
factor below both; both formulas are roots. -/
def entwined : List (Operation Exact) :=
  [.createFactor "x" "x" (.value 1) none none,
   .createFormula "a" "a" "x" ["x", "z"] none (some "m"),
   .createFormula "b" "b" "a + x" ["x", "a"] none none,
   .addChild "a" "b",
   .addChild "a" "a",
   .markRoot "a",
   .markRoot "b"]

theorem delete_filters_entwined :
    (empty : Registry Exact).FreshRun entwined ∧
    ((empty : Registry Exact).run entwined).nodes.contains "a" = true ∧
    ((empty : Registry Exact).run entwined).childIds "a" = ["x", "z", "b", "a"] ∧
    ((empty : Registry Exact).run entwined).parentIds "x" = ["a", "b"] ∧
    Unmentioned (((empty : Registry Exact).run entwined).delete "a").2 "a" ∧
    (((empty : Registry Exact).run entwined).delete "a").2.nodes.keys = ["x", "b"] ∧
    (((empty : Registry Exact).run entwined).delete "a").2.roots = ["b"] ∧
    (((empty : Registry Exact).run entwined).delete "a").2.childIds "b" = ["x"] ∧
    (((empty : Registry Exact).run entwined).delete "a").2.parentIds "x" = ["b"] := by
  have hfresh : (empty : Registry Exact).FreshRun entwined := by decide +kernel
  have hid : ((empty : Registry Exact).run entwined).nodes.contains "a" = true := by decide +kernel
  obtain ⟨-, hwithout, hunmentioned⟩ := run_delete_filters hfresh hid
  refine ⟨hfresh, hid, by decide +kernel, by decide +kernel, hunmentioned, ?_, ?_, ?_, ?_⟩
  · rw [hwithout.keys]
    decide +kernel
  · rw [hwithout.roots]
    decide +kernel
  · decide +kernel
  · decide +kernel

end Registry

end FormulaGraph
