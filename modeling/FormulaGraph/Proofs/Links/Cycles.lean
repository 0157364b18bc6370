import FormulaGraph.Proofs.Links.Order
import Mathlib.Data.List.Chain
import Mathlib.Data.List.TakeWhile
/-!
# The cycle that is found

While a search goes down, its path is a chain of links in which no node is met twice. So where it
comes upon a node of the path, the part of the path from there on is a cycle, and one without
repetitions (`isCycle_of_search`). That a search which finds nothing has missed nothing is shown in
`FormulaGraph.Proofs.Links.Acyclic`.

* `findCycle_eq_none_iff`: nothing is found exactly where there is no cycle.
* `isCycle_of_findCycle`: what is found is a cycle.
* `findOptionalCycle_agrees`: among optional nodes the same holds of what is listed before `none`,
  and `findOptionalCycle_hidden` is a cycle that is not found.
-/
namespace FormulaGraph.Links

variable {κ : Type} [DecidableEq κ] {g : Children κ}

/-- A cycle as a path: each node is a child of the one before, the last is the first again, and no
other is there twice. -/
def IsCycle (g : Children κ) (cycle : List κ) : Prop :=
  ∃ n rest, cycle = n :: rest ++ [n] ∧ (n :: rest).Nodup ∧ cycle.IsChain (Child g)

/-! ## What a search finds -/

/-- From its first visit of a node on, a path is a suffix. -/
theorem exists_closeCycle {path : List κ} {n : κ} (hn : n ∈ path) :
    ∃ rest, closeCycle path n = n :: rest ++ [n] ∧ n :: rest <:+ path.reverse := by
  have hsuffix := List.dropWhile_suffix (l := path.reverse) (· ≠ n)
  unfold closeCycle
  cases hdrop : path.reverse.dropWhile (· ≠ n) with
  | nil =>
    have hall := List.dropWhile_eq_nil_iff.1 hdrop n (List.mem_reverse.2 hn)
    simp at hall
  | cons m rest =>
    have hhead := List.head?_dropWhile_not (· ≠ n) path.reverse
    rw [hdrop] at hhead
    obtain rfl : m = n := by simpa using hhead
    exact ⟨rest, rfl, hdrop ▸ hsuffix⟩

theorem isCycle_closeCycle {path : List κ} {n : κ} (hn : n ∈ path) (hnodup : path.Nodup)
    (hchain : (n :: path).IsChain fun c p => Child g p c) : IsCycle g (closeCycle path n) := by
  obtain ⟨rest, hclose, before, hsplit⟩ := exists_closeCycle hn
  have hdown : (path.reverse ++ [n]).IsChain (Child g) := by
    rw [← List.reverse_cons]
    exact List.isChain_reverse.2 hchain
  refine ⟨n, rest, hclose, ?_, ?_⟩
  · exact (List.nodup_reverse.2 hnodup).sublist (hsplit ▸ List.sublist_append_right before _)
  · rw [hclose]
    exact hdown.suffix ⟨before, by rw [← hsplit, List.append_assoc]⟩

theorem isCycle_of_search {path done cycle : List κ} {n : κ} (hnodup : path.Nodup)
    (hchain : (n :: path).IsChain fun c p => Child g p c)
    (h : search g path done n = .error cycle) : IsCycle g cycle := by
  fun_induction search g path done n with
  | case1 path done n hpath =>
    cases h
    exact isCycle_closeCycle hpath hnodup hchain
  | case2 => cases h
  | case3 => cases h
  | case4 path done n hpath _ kids hget found hkids ih =>
    cases h
    obtain ⟨kid, hkid, done', hfail⟩ := exists_error_of_foldlM hkids
    have hchild : Child g n kid := by rwa [Child, childrenOf, hget]
    have hbelow : (kid :: n :: path).IsChain fun c p => Child g p c :=
      List.isChain_cons_cons.2 ⟨hchild, hchain⟩
    exact ih done' kid (List.nodup_cons.2 ⟨hpath, hnodup⟩) hbelow hfail
  | case5 => cases h

theorem isCycle_of_findCycle {cycle : List κ} (h : findCycle g = some cycle) : IsCycle g cycle := by
  unfold findCycle at h
  split at h
  · rename_i found hfound
    cases h
    obtain ⟨n, -, done, hfail⟩ := exists_error_of_foldlM hfound
    exact isCycle_of_search List.nodup_nil (List.isChain_singleton n) hfail
  · cases h

/-! ## Where nothing is found -/

theorem IsCycle.exists_transGen {cycle : List κ} (h : IsCycle g cycle) :
    ∃ n, Relation.TransGen (Child g) n n := by
  obtain ⟨n, rest, rfl, -, hchain⟩ := h
  refine ⟨n, ?_⟩
  obtain ⟨m, tail, htail⟩ : ∃ m tail, rest ++ [n] = m :: tail :=
    List.exists_cons_of_ne_nil (by simp)
  have hlast : (m :: tail).getLast (List.cons_ne_nil m tail) = n := by
    simp only [← htail, List.getLast_concat]
  rw [List.cons_append, htail, List.isChain_cons_cons] at hchain
  obtain ⟨hfirst, hrest⟩ := hchain
  exact .head' hfirst (List.relationReflTransGen_of_exists_isChain_cons tail hrest hlast)

theorem findCycle_eq_none_iff : findCycle g = none ↔ ∀ n, ¬Relation.TransGen (Child g) n n := by
  refine ⟨not_transGen_child_of_findCycle, fun hacyclic => ?_⟩
  cases h : findCycle g with
  | none => rfl
  | some cycle =>
    obtain ⟨n, hcycle⟩ := (isCycle_of_findCycle h).exists_transGen
    exact absurd hcycle (hacyclic n)

/-- A cycle is found exactly where no order is. -/
theorem findCycle_eq_none_iff_childrenFirst :
    findCycle g = none ↔ ∃ order, childrenFirst g = .ok order := by
  rw [findCycle_eq_none_iff]
  constructor
  · intro hacyclic
    cases h : childrenFirst g with
    | ok order => exact ⟨order, rfl⟩
    | error e =>
      obtain ⟨n, hcycle⟩ := exists_transGen_of_childrenFirst_eq_error h
      exact absurd hcycle (hacyclic n)
  · rintro ⟨order, h⟩
    exact not_transGen_of_childrenFirst_eq_ok h

/-! ## Optional nodes -/

theorem childrenOf_untilNone (g : Children (Option κ)) (n : Option κ) :
    childrenOf (untilNone g) n = (childrenOf g n).takeWhile Option.isSome := by
  rw [childrenOf, childrenOf, untilNone, OrderedMap.get?_mapValues]
  cases g.get? n <;> rfl

theorem child_of_untilNone {g : Children (Option κ)} {p c : Option κ}
    (h : Child (untilNone g) p c) : Child g p c := by
  rw [Child, childrenOf_untilNone] at h
  exact (List.takeWhile_sublist _).subset h

theorem forall_not_child_iff {c : κ} : (∀ p, ¬Child g p c) ↔ ∀ e ∈ g.entries, c ∉ e.2 := by
  simp only [child_iff, not_exists, not_and, Prod.forall]

/-- Where `none` is no child, every child is seen. -/
theorem untilNone_eq_self {g : Children (Option κ)} (h : ∀ p, ¬Child g p none) :
    untilNone g = g := by
  have hall : ∀ e ∈ g.entries, (e.1, e.2.takeWhile Option.isSome) = e := by
    intro e he
    have hsome : ∀ c ∈ e.2, c.isSome = true := by
      intro c hc
      rw [Option.isSome_iff_ne_none]
      rintro rfl
      exact forall_not_child_iff.1 h e he hc
    rw [List.takeWhile_eq_self_iff.2 hsome]
  have hentries : (untilNone g).entries = g.entries := by
    rw [untilNone, OrderedMap.mapValues]
    exact (List.map_congr_left hall).trans (List.map_id _)
  cases g
  exact OrderedMap.mk.injEq .. ▸ hentries

theorem IsCycle.of_untilNone {g : Children (Option κ)} {cycle : List (Option κ)}
    (h : IsCycle (untilNone g) cycle) : IsCycle g cycle := by
  obtain ⟨n, rest, heq, hnodup, hchain⟩ := h
  exact ⟨n, rest, heq, hnodup, hchain.imp fun _ _ => child_of_untilNone⟩

/-- **A cycle is found where no order is.** What is found is a cycle of the graph without
repetitions. One is found exactly where the children that stand before the first `none` of their
list have no order; so where `none` is no child, exactly where the graph has no order. -/
theorem findOptionalCycle_agrees (g : Children (Option κ)) :
    (∀ cycle, findOptionalCycle g = some cycle → IsCycle g cycle) ∧
    (findOptionalCycle g = none ↔ ∃ order, childrenFirst (untilNone g) = .ok order) ∧
    ((∀ p, ¬Child g p none) →
      (findOptionalCycle g = none ↔ ∃ order, childrenFirst g = .ok order)) := by
  refine ⟨fun cycle h => ?_, findCycle_eq_none_iff_childrenFirst, fun hnone => ?_⟩
  · exact (isCycle_of_findCycle h).of_untilNone
  · rw [findOptionalCycle, untilNone_eq_self hnone]
    exact findCycle_eq_none_iff_childrenFirst

/-- A cycle behind a child that is on none, and `none` above it. -/
def overhung : Children (Option Text) :=
  .ofList
    [(none, [some "a"]), (some "a", [some "leaf", some "b"]), (some "b", [some "c", some "b"]),
     (some "c", [some "leaf", some "b"])]

theorem findOptionalCycle_agrees_overhung :
    (∀ p, ¬Child overhung p none) ∧
    findOptionalCycle overhung = some [some ("b" : Text), some "c", some "b"] ∧
    IsCycle overhung [some "b", some "c", some "b"] ∧
    ¬∃ order, childrenFirst overhung = .ok order := by
  have hnone : ∀ p, ¬Child overhung p none := forall_not_child_iff.2 (by decide +kernel)
  have hfound : findOptionalCycle overhung = some [some ("b" : Text), some "c", some "b"] := by
    decide +kernel
  obtain ⟨hcycle, -, hagree⟩ := findOptionalCycle_agrees overhung
  refine ⟨hnone, hfound, hcycle _ hfound, fun horder => ?_⟩
  rw [(hagree hnone).2 horder] at hfound
  cases hfound

/-- A cycle with one of its links listed behind `none`. -/
def hidden : Children (Option Text) :=
  .ofList [(some "a", [none, some "b"]), (some "b", [some "a"])]

/-- Nothing is found, and there is no order. -/
theorem findOptionalCycle_hidden :
    findOptionalCycle hidden = none ∧ childrenFirst hidden = .error ⟨[some "a", some "b"]⟩ ∧
    ¬∀ g : Children (Option Text),
      findOptionalCycle g = none ↔ ∃ order, childrenFirst g = .ok order := by
  have hfound : findOptionalCycle hidden = none := by decide +kernel
  have herror : childrenFirst hidden = .error ⟨[some "a", some "b"]⟩ := by decide +kernel
  refine ⟨hfound, herror, fun h => ?_⟩
  obtain ⟨order, horder⟩ := (h hidden).1 hfound
  cases herror.symm.trans horder

end FormulaGraph.Links
