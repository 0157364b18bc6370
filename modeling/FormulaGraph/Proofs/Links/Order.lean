import FormulaGraph.Proofs.Evaluation.Walk
import FormulaGraph.Proofs.Links.Acyclic
/-!
# The order of a graph

Ready nodes are taken one by one, and what waits becomes ready when its last child is taken. At
every moment the nodes that are taken, ready and waiting are those of the graph, each once; what is
taken has its children before it, what is ready has them all taken, and what waits lacks one
(`Sorting`).
So when nothing is ready, every waiting node has a child that waits as well, and a walk down from it
never ends: it has come upon a cycle.

* `Sorting.takeReady`: the run of the procedure.
* `exists_cycle_of_closed`: a finite set that every node can be left from within ends in a cycle.
* `childrenFirst_sorts`: an order is found exactly when there is no cycle, it is one, and the nodes
  that remain otherwise are those with a cycle below them.
-/
namespace FormulaGraph.Links

variable {κ : Type} [DecidableEq κ] {g : Children κ}

/-- An order of a graph: every key and every child once, and all children of a node before it. -/
structure IsOrder (g : Children κ) (order : List κ) : Prop where
  nodup : order.Nodup
  mem_iff : ∀ n, n ∈ order ↔ n ∈ g.keys ∨ ∃ p, Child g p n
  children_before : ∀ before n behind, order = before ++ n :: behind →
    ∀ c, Child g n c → c ∈ before

/-- A node that is on a cycle or has one below it. -/
def MeetsCycle (g : Children κ) (n : κ) : Prop :=
  ∃ z, Relation.ReflTransGen (Child g) n z ∧ Relation.TransGen (Child g) z z

/-! ## Nodes and their children -/

theorem mem_vertices_iff {n : κ} : n ∈ vertices g ↔ n ∈ g.keys ∨ ∃ p, Child g p n := by
  have hchild : (∃ p, Child g p n) ↔ ∃ e ∈ g.entries, n ∈ e.2 := by
    simp only [child_iff, Prod.exists]
  rw [hchild, vertices, List.mem_eraseDups, List.mem_flatMap, OrderedMap.keys]
  simp only [List.mem_cons, List.mem_map]
  constructor
  · rintro ⟨e, he, rfl | hn⟩
    · exact .inl ⟨e, he, rfl⟩
    · exact .inr ⟨e, he, hn⟩
  · rintro (⟨e, he, rfl⟩ | ⟨e, he, hn⟩)
    · exact ⟨e, he, .inl rfl⟩
    · exact ⟨e, he, .inr hn⟩

theorem complete_iff {done : List κ} {n : κ} :
    complete g done n = true ↔ ∀ c, Child g n c → c ∈ done := by
  simp [complete, Child]

theorem complete_eq_false_iff {done : List κ} {n : κ} :
    complete g done n = false ↔ ∃ c, Child g n c ∧ c ∉ done := by
  simp [complete, Child]

theorem complete_append {done : List κ} {n : κ} (h : complete g done n = true) (more : List κ) :
    complete g (done ++ more) n = true :=
  complete_iff.2 fun c hc => List.mem_append_left more (complete_iff.1 h c hc)

/-! ## The procedure -/

/-- What holds of the nodes that are taken, ready and waiting. -/
structure Sorting (g : Children κ) (done ready waiting : List κ) : Prop where
  perm : (done ++ (ready ++ waiting)).Perm (vertices g)
  postordered : Postordered g done.reverse
  complete : ∀ n ∈ ready, complete g done n = true
  blocked : ∀ n ∈ waiting, Links.complete g done n = false

theorem Sorting.nodup {done ready waiting : List κ} (h : Sorting g done ready waiting) :
    (done ++ (ready ++ waiting)).Nodup :=
  h.perm.nodup_iff.2 (Registry.nodup_eraseDups _)

theorem freed_append_blocked (g : Children κ) (done waiting : List κ) :
    (freed g done waiting ++ blocked g done waiting).Perm waiting :=
  List.filter_append_perm (complete g done) waiting

/-- Taking a ready node. -/
theorem Sorting.take {done rest waiting : List κ} {n : κ}
    (h : Sorting g done (n :: rest) waiting) :
    Sorting g (done ++ [n]) (rest ++ freed g (done ++ [n]) waiting)
      (Links.blocked g (done ++ [n]) waiting) where
  perm := by
    refine List.Perm.trans ?_ h.perm
    rw [List.append_assoc, List.append_assoc, List.singleton_append, List.cons_append]
    have hleft := (freed_append_blocked g (done ++ [n]) waiting).append_left rest
    exact (hleft.cons n).append_left done
  postordered := by
    rw [List.reverse_append, List.reverse_singleton, List.singleton_append]
    refine .cons (fun c hc => List.mem_reverse.2 ?_) h.postordered
    exact complete_iff.1 (h.complete n List.mem_cons_self) c hc
  complete m hm := by
    rcases List.mem_append.1 hm with hrest | hfreed
    · exact complete_append (h.complete m (List.mem_cons_of_mem n hrest)) [n]
    · exact (List.mem_filter.1 hfreed).2
  blocked m hm := by simpa using (List.mem_filter.1 hm).2

/-- When nothing is ready any more, the invariant holds of what was taken and what still waits. -/
theorem Sorting.takeReady {done ready waiting : List κ} (h : Sorting g done ready waiting) :
    Sorting g (takeReady g done ready waiting).1 [] (takeReady g done ready waiting).2 := by
  fun_induction Links.takeReady g done ready waiting with
  | case1 done waiting => exact h
  | case2 done waiting n rest done' ih => exact ih h.take

/-- At the beginning the nodes without children are ready, and the others wait. -/
theorem sorting_start (g : Children κ) :
    Sorting g [] ((vertices g).filter fun n => (childrenOf g n).isEmpty)
      (g.keys.filter fun n => !(childrenOf g n).isEmpty) where
  perm := by
    have hkeys : ((vertices g).filter fun n => !(childrenOf g n).isEmpty).Perm
        (g.keys.filter fun n => !(childrenOf g n).isEmpty) := by
      refine (List.perm_ext_iff_of_nodup ?_ ?_).2 fun n => ?_
      · exact (Registry.nodup_eraseDups _).filter _
      · exact g.nodup.filter _
      · -- what has children is a key
        simp only [List.mem_filter, mem_vertices_iff, and_congr_left_iff, or_iff_left_iff_imp]
        rintro hn -
        obtain ⟨c, hc⟩ := List.exists_mem_of_ne_nil (childrenOf g n) (by simpa using hn)
        exact mem_keys_of_child hc
    exact (hkeys.symm.append_left _).trans (List.filter_append_perm _ (vertices g))
  postordered := .nil
  complete n hn := by
    have hnone : childrenOf g n = [] := by simpa using (List.mem_filter.1 hn).2
    simp [Links.complete, hnone]
  blocked n hn := by
    have hsome : childrenOf g n ≠ [] := by simpa using (List.mem_filter.1 hn).2
    obtain ⟨c, hc⟩ := List.exists_mem_of_ne_nil _ hsome
    exact complete_eq_false_iff.2 ⟨c, hc, List.not_mem_nil⟩

/-! ## What is taken -/

theorem Postordered.mem_of_split {before behind : List κ} {n : κ}
    (h : Postordered g (before ++ n :: behind)) {c : κ} (hc : Child g n c) : c ∈ behind := by
  induction before with
  | nil =>
    cases h with
    | cons hn _ => exact hn c hc
  | cons m before ih =>
    cases h with
    | cons _ hrest => exact ih hrest

theorem Sorting.isOrder {order : List κ} (h : Sorting g order [] []) : IsOrder g order where
  nodup := by
    have hperm : order.Perm (vertices g) := by simpa using h.perm
    exact hperm.nodup_iff.2 (Registry.nodup_eraseDups _)
  mem_iff n := by
    have hperm : order.Perm (vertices g) := by simpa using h.perm
    rw [hperm.mem_iff, mem_vertices_iff]
  children_before before n behind hsplit c hc := by
    have hpost := h.postordered
    rw [hsplit, List.reverse_append, List.reverse_cons, List.append_assoc, List.singleton_append]
      at hpost
    exact List.mem_reverse.1 (hpost.mem_of_split hc)

/-- Nothing that was taken has a cycle below it. -/
theorem Sorting.not_meetsCycle {done waiting : List κ} (h : Sorting g done [] waiting) {n : κ}
    (hn : n ∈ done) : ¬MeetsCycle g n := by
  rintro ⟨z, hz, hcycle⟩
  have hmem := h.postordered.mem_of_reaches (List.mem_reverse.2 hn) hz
  exact h.postordered.not_cycle hmem hcycle

/-! ## What is left waiting -/

/-- Where every node of a finite set has a child in the set, each has a cycle below it. -/
theorem exists_cycle_of_closed {S : List κ} (hS : ∀ n ∈ S, ∃ c ∈ S, Child g n c) (path : List κ)
    {n : κ} (hn : n ∈ S) (hpath : ∀ p ∈ path, Relation.TransGen (Child g) p n) :
    MeetsCycle g n := by
  by_cases hmem : n ∈ path
  · exact ⟨n, .refl, hpath n hmem⟩
  · obtain ⟨c, hc, hchild⟩ := hS n hn
    have := unvisited_cons_lt hn hmem
    obtain ⟨z, hz, hcycle⟩ :=
      exists_cycle_of_closed hS (n :: path) hc (Registry.transGen_cons hchild hpath)
    exact ⟨z, .head hchild hz, hcycle⟩
termination_by unvisited S path

theorem Sorting.meetsCycle {done waiting : List κ} (h : Sorting g done [] waiting) {n : κ}
    (hn : n ∈ waiting) : MeetsCycle g n := by
  refine exists_cycle_of_closed (fun m hm => ?_) [] hn (by simp)
  obtain ⟨c, hc, hnot⟩ := complete_eq_false_iff.1 (h.blocked m hm)
  -- the child that is missing was not taken, so it waits too
  have hvertex : c ∈ done ++ ([] ++ waiting) :=
    h.perm.mem_iff.2 (mem_vertices_iff.2 (.inr ⟨m, hc⟩))
  exact ⟨c, (List.mem_append.1 hvertex).resolve_left hnot, hc⟩

theorem Sorting.mem_waiting_iff {done waiting : List κ} (h : Sorting g done [] waiting) {n : κ} :
    n ∈ waiting ↔ MeetsCycle g n := by
  refine ⟨h.meetsCycle, fun hcycle => ?_⟩
  have hkey : n ∈ g.keys := by
    obtain ⟨z, hz, hback⟩ := hcycle
    obtain ⟨c, hc⟩ : ∃ c, Child g n c := by
      rcases hz.cases_head with rfl | ⟨c, hc, -⟩
      · obtain ⟨c, hc, -⟩ := Relation.TransGen.head'_iff.1 hback
        exact ⟨c, hc⟩
      · exact ⟨c, hc⟩
    exact mem_keys_of_child hc
  have hvertex : n ∈ done ++ ([] ++ waiting) := h.perm.mem_iff.2 (mem_vertices_iff.2 (.inl hkey))
  exact (List.mem_append.1 hvertex).resolve_left fun hdone => h.not_meetsCycle hdone hcycle

/-! ## The order -/

theorem sorting_of_childrenFirst_eq_ok {order : List κ} (h : childrenFirst g = .ok order) :
    Sorting g order [] [] := by
  have hend := (sorting_start g).takeReady
  unfold childrenFirst at h
  extract_lets ready waiting at h
  split at h
  · rename_i order' hall
    obtain rfl := Except.ok.inj h
    rwa [hall] at hend
  · cases h

theorem sorting_of_childrenFirst_eq_error {e : CycleError κ} (h : childrenFirst g = .error e) :
    ∃ done, Sorting g done [] e.remaining ∧ e.remaining ≠ [] := by
  have hend := (sorting_start g).takeReady
  unfold childrenFirst at h
  extract_lets ready waiting at h
  split at h
  · cases h
  · rename_i done left hsome hall
    obtain rfl := Except.error.inj h
    rw [hall] at hend
    exact ⟨done, hend, hsome⟩

theorem not_transGen_of_childrenFirst_eq_ok {order : List κ} (h : childrenFirst g = .ok order)
    (n : κ) : ¬Relation.TransGen (Child g) n n := by
  intro hcycle
  have hwaits := (sorting_of_childrenFirst_eq_ok h).mem_waiting_iff.2 ⟨n, .refl, hcycle⟩
  exact List.not_mem_nil hwaits

theorem exists_transGen_of_childrenFirst_eq_error {e : CycleError κ}
    (h : childrenFirst g = .error e) : ∃ n, Relation.TransGen (Child g) n n := by
  obtain ⟨done, hsorted, hsome⟩ := sorting_of_childrenFirst_eq_error h
  obtain ⟨n, hn⟩ := List.exists_mem_of_ne_nil _ hsome
  obtain ⟨z, -, hcycle⟩ := hsorted.meetsCycle hn
  exact ⟨z, hcycle⟩

/-- **Children first.** An order is found exactly when the graph has no cycle. What is found has
every key and every child once, each behind all of its children. What remains otherwise are the
nodes that have a cycle below them or are on one. -/
theorem childrenFirst_sorts (g : Children κ) :
    ((∃ order, childrenFirst g = .ok order) ↔ ∀ n, ¬Relation.TransGen (Child g) n n) ∧
    (∀ order, childrenFirst g = .ok order → IsOrder g order) ∧
    ∀ e, childrenFirst g = .error e →
      e.remaining.Nodup ∧ ∀ n, n ∈ e.remaining ↔ MeetsCycle g n := by
  refine ⟨⟨?_, fun hacyclic => ?_⟩, fun order h => ?_, fun e h => ?_⟩
  · rintro ⟨order, h⟩ n hcycle
    have hsorted := sorting_of_childrenFirst_eq_ok h
    exact List.not_mem_nil (hsorted.mem_waiting_iff.2 ⟨n, .refl, hcycle⟩)
  · cases h : childrenFirst g with
    | ok order => exact ⟨order, rfl⟩
    | error e =>
      obtain ⟨done, hsorted, hsome⟩ := sorting_of_childrenFirst_eq_error h
      obtain ⟨n, hn⟩ := List.exists_mem_of_ne_nil _ hsome
      obtain ⟨z, -, hcycle⟩ := hsorted.meetsCycle hn
      exact absurd hcycle (hacyclic z)
  · exact (sorting_of_childrenFirst_eq_ok h).isOrder
  · obtain ⟨done, hsorted, -⟩ := sorting_of_childrenFirst_eq_error h
    exact ⟨(List.nodup_append.1 hsorted.nodup).2.1, fun n => hsorted.mem_waiting_iff⟩

/-- A child that is listed twice, and one that is no key. -/
def invoice : Children Text :=
  .ofList
    [("total", ["subtotal", "tax", "subtotal"]), ("tax", ["subtotal"]), ("subtotal", ["item"])]

/-- A node that is its own child, one above it, and two that are not. -/
def looped : Children Text :=
  .ofList [("top", ["self", "leaf"]), ("self", ["self"]), ("side", ["leaf"])]

theorem childrenFirst_sorts_invoice :
    childrenFirst invoice = .ok ["item", "subtotal", "tax", "total"] ∧
    IsOrder invoice ["item", "subtotal", "tax", "total"] ∧
    childrenFirst looped = .error ⟨["top", "self"]⟩ ∧
    MeetsCycle looped "top" ∧ ¬MeetsCycle looped "side" := by
  have hok : childrenFirst invoice = .ok ["item", "subtotal", "tax", "total"] := by decide +kernel
  have herror : childrenFirst looped = .error ⟨["top", "self"]⟩ := by decide +kernel
  have hleft := ((childrenFirst_sorts looped).2.2 _ herror).2
  refine ⟨hok, (childrenFirst_sorts invoice).2.1 _ hok, herror, (hleft "top").1 ?_, ?_⟩
  · decide +kernel
  · rw [← hleft "side"]
    decide +kernel

end FormulaGraph.Links
