import FormulaGraph.Proofs.Links.Order
import FormulaGraph.Proofs.Text.Sorted
/-!
# Everything that depends on a node

`reach` collects what steps lead to from a list of starting points. What it gives is closed under
steps (`reach_closed`), as everything that a collected node leads to was either collected or put on
the list of things to do. So it misses nothing that a chain of steps leads to, and it collects
nothing else (`reach_induction`).

* `mem_ancestors_iff`: the ancestors of `x` are the nodes with a chain of links to `x`.
* `mem_dependents_iff`: in whichever order they come, the dependents of `x` are its ancestors, as an
  order of the links between them has every one of them in it.
-/
namespace FormulaGraph

namespace Links

/-! ## Reaching -/

section

variable {ids : List Text} {next : Text → List Text}

theorem mem_reach_of_todo (todo seen : List Text) {id : Text} (hid : id ∈ ids) (h : id ∈ todo) :
    id ∈ reach ids next todo seen := by
  fun_induction reach ids next todo seen with
  | case1 seen => cases h
  | case2 seen first rest hnew ih =>
    rcases List.mem_cons.1 h with rfl | h
    · exact mem_reach_of_seen _ _ List.mem_cons_self
    · exact ih (List.mem_append_right _ h)
  | case3 seen first rest hold ih =>
    rcases List.mem_cons.1 h with rfl | h
    · have hseen : id ∈ seen := by
        by_contra hseen
        exact hold ⟨hid, hseen⟩
      exact mem_reach_of_seen _ _ hseen
    · exact ih h

/-- What holds of the starting points and goes over from a node to the next holds of all that is
collected. -/
theorem reach_induction {P : Text → Prop} (todo seen : List Text) (htodo : ∀ id ∈ todo, P id)
    (hseen : ∀ id ∈ seen, P id) (hnext : ∀ p, P p → ∀ c ∈ next p, P c) :
    ∀ id ∈ reach ids next todo seen, P id := by
  fun_induction reach ids next todo seen with
  | case1 seen => exact hseen
  | case2 seen first rest hnew ih =>
    obtain ⟨hfirst, hrest⟩ := List.forall_mem_cons.1 htodo
    refine ih ?_ (List.forall_mem_cons.2 ⟨hfirst, hseen⟩)
    exact List.forall_mem_append.2 ⟨hnext first hfirst, hrest⟩
  | case3 seen first rest hold ih => exact ih (List.forall_mem_cons.1 htodo).2 hseen

theorem nodup_reach (todo seen : List Text) (hseen : seen.Nodup) :
    (reach ids next todo seen).Nodup := by
  fun_induction reach ids next todo seen with
  | case1 seen => exact hseen
  | case2 seen first rest hnew ih => exact ih (List.nodup_cons.2 ⟨hnew.2, hseen⟩)
  | case3 seen first rest hold ih => exact ih hseen

/-- What is collected is closed under steps, if what was seen before leads to nothing but what was
seen and what is still to do. -/
theorem reach_closed (todo seen : List Text)
    (h : ∀ p ∈ seen, ∀ c ∈ next p, c ∈ ids → c ∈ seen ∨ c ∈ todo) :
    ∀ p ∈ reach ids next todo seen, ∀ c ∈ next p, c ∈ ids → c ∈ reach ids next todo seen := by
  fun_induction reach ids next todo seen with
  | case1 seen =>
    intro p hp c hc hid
    exact (h p hp c hc hid).resolve_right List.not_mem_nil
  | case2 seen first rest hnew ih =>
    refine ih fun p hp c hc hid => ?_
    rcases List.mem_cons.1 hp with rfl | hp
    · exact .inr (List.mem_append_left _ hc)
    · rcases h p hp c hc hid with hseen | htodo
      · exact .inl (List.mem_cons_of_mem _ hseen)
      · rcases List.mem_cons.1 htodo with rfl | hrest
        · exact .inl List.mem_cons_self
        · exact .inr (List.mem_append_right _ hrest)
  | case3 seen first rest hold ih =>
    refine ih fun p hp c hc hid => ?_
    rcases h p hp c hc hid with hseen | htodo
    · exact .inl hseen
    · rcases List.mem_cons.1 htodo with rfl | hrest
      · by_contra hnot
        exact hold ⟨hid, fun hseen => hnot (.inl hseen)⟩
      · exact .inr hrest

end

theorem mem_parentsOf {g : Children Text} {p c : Text} :
    p ∈ parentsOf g c ↔ g.contains c = true ∧ p ∈ g.keys ∧ c ∈ childrenOf g p := by
  unfold parentsOf
  split
  · rename_i hc
    simp [hc]
  · rename_i hc
    simp [hc]

theorem mem_ancestors_iff {g : Children Text} {m x : Text} :
    m ∈ ancestors g x ↔ Relation.TransGen (fun p c => p ∈ parentsOf g c) m x := by
  have hkeys : ∀ p c, p ∈ parentsOf g c → p ∈ g.keys := fun p c hp => (mem_parentsOf.1 hp).2.1
  constructor
  · intro hm
    have hall : ∀ p ∈ ancestors g x, Relation.TransGen (fun p c => p ∈ parentsOf g c) p x :=
      reach_induction _ _ (fun _ hp => .single hp) (by simp) fun _ hp _ hc => .head hc hp
    exact hall m hm
  · intro h
    induction h using Relation.TransGen.head_induction_on with
    | single hstep => exact mem_reach_of_todo _ _ (hkeys _ _ hstep) hstep
    | head hstep _ ih =>
      refine reach_closed _ _ ?_ _ ih _ hstep (hkeys _ _ hstep)
      intro p hp
      cases hp

theorem nodup_ancestors (g : Children Text) (x : Text) : (ancestors g x).Nodup :=
  nodup_reach _ _ List.nodup_nil

/-! ## Some of the nodes -/

theorem entries_restrict (g : Children Text) (subset : List Text) : (restrict g subset).entries =
    (g.entries.filter fun e => e.1 ∈ subset).map fun e => (e.1, e.2.filter (· ∈ subset)) := by
  refine OrderedMap.entries_ofList ?_
  rw [List.map_map]
  exact g.nodup.sublist (List.filter_sublist.map _)

theorem mem_keys_restrict {g : Children Text} {subset : List Text} {n : Text} :
    n ∈ (restrict g subset).keys ↔ n ∈ g.keys ∧ n ∈ subset := by
  simp only [OrderedMap.keys, entries_restrict, List.map_map, List.mem_map, List.mem_filter,
    Function.comp_apply, decide_eq_true_eq]
  grind

theorem child_restrict {g : Children Text} {subset : List Text} {p c : Text} :
    Child (restrict g subset) p c ↔ Child g p c ∧ p ∈ subset ∧ c ∈ subset := by
  simp only [child_iff, entries_restrict, List.mem_map, List.mem_filter, Prod.mk.injEq,
    decide_eq_true_eq]
  grind

end Links

/-! ## Dependents -/

namespace Registry

variable {α : Type} {nodes : OrderedMap Text (Node α)}

theorem mem_parentsOf_of_link {p c : Text} (h : Link nodes p c) :
    p ∈ Links.parentsOf (Links.ofNodes nodes) c := by
  obtain ⟨n, hn, -, hc, hex⟩ := h
  rw [Links.mem_parentsOf]
  refine ⟨?_, ?_, ?_⟩
  · simpa [Links.ofNodes, OrderedMap.contains] using hex
  · rw [Links.ofNodes, OrderedMap.keys_mapValues]
    exact OrderedMap.mem_keys_of_get? hn
  · rw [Links.childrenOf, Links.ofNodes, OrderedMap.get?_mapValues, hn]
    exact List.mem_eraseDups.2 (List.mem_filter.2 ⟨hc, hex⟩)

/-- In order or not, the dependents are the nodes that were found. -/
theorem mem_dependents_iff {r : Registry α} {m x : Text} :
    m ∈ r.dependents x ↔ m ∈ Links.ancestors (Links.ofNodes r.nodes) x := by
  unfold dependents
  extract_lets g found
  split
  · rename_i order horder
    rw [(Links.sorting_of_childrenFirst_eq_ok horder).isOrder.mem_iff]
    constructor
    · rintro (hkey | ⟨p, hchild⟩)
      · exact (Links.mem_keys_restrict.1 hkey).2
      · exact (Links.child_restrict.1 hchild).2.2
    · intro hfound
      refine .inl (Links.mem_keys_restrict.2 ⟨?_, hfound⟩)
      -- the first node of a chain is a parent, and parents are keys
      obtain ⟨c, hc, -⟩ := Relation.TransGen.head'_iff.1 (Links.mem_ancestors_iff.1 hfound)
      exact (Links.mem_parentsOf.1 hc).2.1
  · exact Text.mem_sorted

theorem mem_dependents {r : Registry α} {m x : Text}
    (h : Relation.TransGen (Link r.nodes) m x) : m ∈ r.dependents x :=
  mem_dependents_iff.2 (Links.mem_ancestors_iff.2 (h.lift id fun _ _ => mem_parentsOf_of_link))

end Registry

end FormulaGraph
