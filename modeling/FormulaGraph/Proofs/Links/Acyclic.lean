import FormulaGraph.Links.Cycle
import FormulaGraph.Links.Graph
import FormulaGraph.Proofs.Except
import Mathlib.Logic.Relation
/-!
# Graphs in which no cycle is found

A search that comes to its end without a cycle has seen every child of a node before the node was
done. So the nodes that are done, the latest first, are in postorder: each has all of its children
behind it. Nothing that stands in such a list lies on a cycle.

* `postordered_search`: a search keeps the order, and the node it was called with is done.
* `not_transGen_child_of_findCycle`: where no cycle is found, there is none.
-/
namespace FormulaGraph.Links

section

variable {κ : Type} [DecidableEq κ] {g : Children κ}

/-- `c` is a child of `p`. -/
def Child (g : Children κ) (p c : κ) : Prop := c ∈ childrenOf g p

theorem child_iff {p c : κ} : Child g p c ↔ ∃ kids, (p, kids) ∈ g.entries ∧ c ∈ kids := by
  simp only [Child, childrenOf, ← OrderedMap.get?_eq_some_iff]
  cases g.get? p <;> simp

theorem mem_keys_of_child {p c : κ} (h : Child g p c) : p ∈ g.keys := by
  obtain ⟨kids, hentry, -⟩ := child_iff.1 h
  exact List.mem_map.2 ⟨_, hentry, rfl⟩

/-- Every node in the list has all of its children further behind. -/
inductive Postordered (g : Children κ) : List κ → Prop where
  | nil : Postordered g []
  | cons {n : κ} {done : List κ} (hn : ∀ c, Child g n c → c ∈ done) (hdone : Postordered g done) :
    Postordered g (n :: done)

theorem Postordered.mem_of_child {done : List κ} (h : Postordered g done) {p c : κ} (hp : p ∈ done)
    (hc : Child g p c) : c ∈ done := by
  induction h with
  | nil => cases hp
  | cons hn _ ih =>
    rcases List.mem_cons.1 hp with rfl | hp
    · exact List.mem_cons_of_mem _ (hn c hc)
    · exact List.mem_cons_of_mem _ (ih hp)

theorem Postordered.mem_of_reaches {done : List κ} (h : Postordered g done) {p c : κ}
    (hp : p ∈ done) (hc : Relation.ReflTransGen (Child g) p c) : c ∈ done := by
  induction hc with
  | refl => exact hp
  | tail _ hchild ih => exact h.mem_of_child ih hchild

theorem Postordered.not_cycle {done : List κ} (h : Postordered g done) {n : κ} (hn : n ∈ done) :
    ¬Relation.TransGen (Child g) n n := by
  induction h with
  | nil => cases hn
  | cons hchildren hdone ih =>
    intro hcycle
    obtain ⟨c, hc, hback⟩ := Relation.TransGen.head'_iff.1 hcycle
    rcases List.mem_cons.1 hn with rfl | hn
    · -- the cycle leads back into the part behind the node
      exact ih (hdone.mem_of_reaches (hchildren c hc) hback) hcycle
    · exact ih hn hcycle

/-- What one node adds to those that are done: nothing is lost, the node is there, and the order is
kept. -/
structure Extends (g : Children κ) (done : List κ) (n : κ) (done' : List κ) : Prop where
  postordered : Postordered g done'
  subset : done ⊆ done'
  mem : n ∈ done'

/-- Steps that extend what is done, one after the other. -/
theorem extends_foldlM {step : List κ → κ → Except (List κ) (List κ)}
    (hstep : ∀ {done n done'}, Postordered g done → step done n = .ok done' →
      Extends g done n done')
    {ns done done' : List κ} (hdone : Postordered g done)
    (h : ns.foldlM step done = .ok done') :
    Postordered g done' ∧ done ⊆ done' ∧ ns ⊆ done' := by
  induction ns generalizing done with
  | nil =>
    cases h
    exact ⟨hdone, List.Subset.refl _, List.nil_subset _⟩
  | cons n ns ih =>
    rw [List.foldlM_cons] at h
    obtain ⟨between, hfirst, h⟩ := ok_of_bind h
    have hn := hstep hdone hfirst
    obtain ⟨hpost, hsub, hmem⟩ := ih hn.postordered h
    exact ⟨hpost, List.Subset.trans hn.subset hsub, List.cons_subset.2 ⟨hsub hn.mem, hmem⟩⟩

theorem postordered_search {path done done' : List κ} {n : κ} (hdone : Postordered g done)
    (h : search g path done n = .ok done') : Extends g done n done' := by
  fun_induction search g path done n generalizing done' with
  | case1 => cases h
  | case2 path done n _ hold =>
    cases h
    exact ⟨hdone, List.Subset.refl _, hold⟩
  | case3 path done n _ _ hget =>
    cases h
    refine ⟨.cons (fun c hc => ?_) hdone, List.subset_cons_self _ _, List.mem_cons_self⟩
    rw [Child, childrenOf, hget] at hc
    cases hc
  | case4 => cases h
  | case5 path done n _ _ kids hget below hkids ih =>
    cases h
    obtain ⟨hbelow, hsub, hmem⟩ := extends_foldlM (fun hd hs => ih _ _ hd hs) hdone hkids
    refine ⟨.cons (fun c hc => hmem ?_) hbelow, List.subset_cons_of_subset _ hsub,
      List.mem_cons_self⟩
    rwa [Child, childrenOf, hget] at hc

theorem not_transGen_child_of_findCycle (h : findCycle g = none) (n : κ) :
    ¬Relation.TransGen (Child g) n n := by
  unfold findCycle at h
  split at h
  · cases h
  · rename_i done hdone
    obtain ⟨hpost, -, hkeys⟩ := extends_foldlM postordered_search .nil hdone
    intro hcycle
    obtain ⟨c, hc, -⟩ := Relation.TransGen.head'_iff.1 hcycle
    exact hpost.not_cycle (hkeys (mem_keys_of_child hc)) hcycle

end

variable {α : Type} {nodes : OrderedMap Text (Node α)}

/-- The children in the graph of a table are the listed ones that exist. -/
theorem child_ofNodes {p c : Text} : Child (ofNodes nodes) p c ↔
    ∃ n, nodes.get? p = some n ∧ c ∈ n.children ∧ nodes.contains c = true := by
  rw [Child, childrenOf, ofNodes, OrderedMap.get?_mapValues]
  cases nodes.get? p with
  | none => simp
  | some n => simp [List.mem_eraseDups]

/-- The node under `p` lists `c`, which need not exist. -/
def Lists (nodes : OrderedMap Text (Node α)) (p c : Text) : Prop :=
  ∃ n, nodes.get? p = some n ∧ c ∈ n.children

/-- `c` is an existing child of the node under `p`. -/
def HasChild (nodes : OrderedMap Text (Node α)) (p c : Text) : Prop :=
  Lists nodes p c ∧ nodes.contains c = true

theorem child_ofNodes_eq (nodes : OrderedMap Text (Node α)) :
    Child (ofNodes nodes) = HasChild nodes := by
  funext p c
  rw [child_ofNodes, HasChild, Lists]
  grind

theorem contains_of_lists {p c : Text} (h : Lists nodes p c) : nodes.contains p = true := by
  obtain ⟨n, hn, -⟩ := h
  exact (nodes.contains_eq_true_iff p).2 ⟨n, hn⟩

/-- What is listed on the way to an existing node lists something itself, and so exists. -/
theorem transGen_hasChild {a b : Text} (hb : nodes.contains b = true)
    (h : Relation.TransGen (Lists nodes) a b) : Relation.TransGen (HasChild nodes) a b := by
  induction h using Relation.TransGen.head_induction_on with
  | single hlists => exact .single ⟨hlists, hb⟩
  | head hlists hrest ih =>
    obtain ⟨d, hd, -⟩ := Relation.TransGen.head'_iff.1 hrest
    exact .head ⟨hlists, contains_of_lists hd⟩ ih

end FormulaGraph.Links
