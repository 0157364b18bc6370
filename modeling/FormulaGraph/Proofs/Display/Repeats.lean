import FormulaGraph.Number.Exact
import FormulaGraph.Proofs.Display.Trees
import FormulaGraph.Proofs.Evaluation.Frame
/-!
# Repetitions in display trees

A display tree unfolds the registry below a node, cycles and all, and is finite because a path ends
where it comes to an id for the second time. The trees on a path show nodes, and a node may be
stored under another id than its own; so a path is told by the ids that lead down it (`Descent`),
child by child in step with the registry.

* `isShown_displayAlong`: what a tree is at the end of a path.
* `exists_repeated_of_cycle`: below a node that reaches a cycle a path comes back to itself. The
  walk follows the cycle at least as far as to its first node that is on the path already.
* `Descent.reaches`: and a path that comes back has gone round a cycle.
* `display_repeated_iff_cycle`: both for whole trees.
-/
namespace FormulaGraph

variable {α : Type}

/-- `s` is the tree `t`, or one below it. -/
def DisplayTree.Inside : DisplayTree α → DisplayTree α → Prop :=
  Relation.ReflTransGen fun t c => c ∈ t.children

namespace Registry

open Links

/-- In `t`, the tree of `id`, the way down to `s`, the tree of `m`, leads through the trees of the
ids `above`. -/
inductive Descent (r : Registry α) :
    Text → DisplayTree α → List Text → Text → DisplayTree α → Prop where
  | here (id : Text) (t : DisplayTree α) : Descent r id t [] id t
  | down {id c m : Text} {n : Node α} {t u s : DisplayTree α} {above : List Text}
    (hn : r.node? id = some n)
    (hchild : (c, u) ∈ (n.children.filter r.nodes.contains).zip t.children)
    (h : Descent r c u above m s) : Descent r id t (id :: above) m s

/-- What the tree of `id` is where the ids `above` lead down to it. -/
structure IsShown (r : Registry α) (above : List Text) (id : Text) (s : DisplayTree α) :
    Prop where
  node : r.node? id = some s.node
  distinct : above.Nodup
  repeated_iff : s.repeated = true ↔ id ∈ above
  children_of_repeated : s.repeated = true → s.children = []
  children : s.repeated = false → s.children.map (·.node) = s.node.children.filterMap r.node?

variable {r : Registry α}

/-! ## Children and their trees -/

theorem isSome_displayAlong (r : Registry α) (path : List Text) (id : Text) :
    (r.displayAlong path id).isSome = r.nodes.contains id := by
  cases hn : r.nodes.get? id with
  | none => simp [displayAlong_of_none hn, OrderedMap.contains, hn]
  | some n =>
    by_cases hpath : id ∈ path
    · simp [displayAlong_of_mem hn hpath, OrderedMap.contains, hn]
    · simp [displayAlong_of_get? hn hpath, OrderedMap.contains, hn]

/-- What is shown of an id: its node, below which there is nothing where the path holds the id, and
all that the walk goes on to show elsewhere. -/
theorem displayAlong_eq_some {path : List Text} {id : Text} {t : DisplayTree α}
    (h : r.displayAlong path id = some t) :
    r.node? id = some t.node ∧
      (id ∈ path ∧ t.repeated = true ∧ t.children = [] ∨
        id ∉ path ∧ t.repeated = false ∧
          t.children = t.node.children.filterMap (r.displayAlong (id :: path))) := by
  cases hn : r.nodes.get? id with
  | none =>
    rw [displayAlong_of_none hn] at h
    cases h
  | some n =>
    by_cases hpath : id ∈ path
    · rw [displayAlong_of_mem hn hpath] at h
      obtain rfl := Option.some.inj h
      exact ⟨hn, .inl ⟨hpath, rfl, rfl⟩⟩
    · rw [displayAlong_of_get? hn hpath] at h
      obtain rfl := Option.some.inj h
      exact ⟨hn, .inr ⟨hpath, rfl, rfl⟩⟩

/-- One tree for every child that exists, in order. -/
theorem forall₂_displayAlong (r : Registry α) (path children : List Text) :
    List.Forall₂ (fun c u => r.displayAlong path c = some u) (children.filter r.nodes.contains)
      (children.filterMap (r.displayAlong path)) := by
  have hsame : children.filterMap (r.displayAlong path) =
      (children.filter r.nodes.contains).filterMap (r.displayAlong path) := by
    rw [List.filterMap_filter]
    refine List.filterMap_congr fun c _ => ?_
    have hsome := isSome_displayAlong r path c
    split
    · rfl
    · rename_i hmissing
      rw [Bool.not_eq_true] at hmissing
      rwa [hmissing, Option.isSome_eq_false_iff, Option.isNone_iff_eq_none] at hsome
  rw [hsame]
  refine forall₂_filterMap fun c hc => ?_
  have hsome := isSome_displayAlong r path c
  rw [(List.mem_filter.1 hc).2] at hsome
  obtain ⟨u, hu⟩ := Option.isSome_iff_exists.1 hsome
  exact ⟨u, hu, hu⟩

theorem displayAlong_of_mem_zip {path children : List Text} {c : Text} {u : DisplayTree α}
    (h : (c, u) ∈ (children.filter r.nodes.contains).zip
      (children.filterMap (r.displayAlong path))) :
    r.displayAlong path c = some u :=
  (List.forall₂_iff_zip.1 (forall₂_displayAlong r path children)).2 h

theorem exists_mem_zip {path children : List Text} {u : DisplayTree α}
    (h : u ∈ children.filterMap (r.displayAlong path)) :
    ∃ c, (c, u) ∈ (children.filter r.nodes.contains).zip
      (children.filterMap (r.displayAlong path)) := by
  have hlength := (forall₂_displayAlong r path children).length_eq
  rw [← List.map_snd_zip (Nat.le_of_eq hlength.symm)] at h
  obtain ⟨⟨c, _⟩, hmem, rfl⟩ := List.mem_map.1 h
  exact ⟨c, hmem⟩

theorem hasChild_of_mem_zip {id c : Text} {n : Node α} {u : DisplayTree α}
    {trees : List (DisplayTree α)} (hn : r.node? id = some n)
    (h : (c, u) ∈ (n.children.filter r.nodes.contains).zip trees) : HasChild r.nodes id c := by
  obtain ⟨hc, hex⟩ := List.mem_filter.1 (List.of_mem_zip h).1
  exact ⟨⟨n, hn, hc⟩, hex⟩

/-! ## Paths of a tree -/

/-- Everything inside of a tree is at the end of a path. -/
theorem exists_descent {path : List Text} {id : Text} {t s : DisplayTree α}
    (ht : r.displayAlong path id = some t) (h : t.Inside s) :
    ∃ above m, Descent r id t above m s := by
  induction h using Relation.ReflTransGen.head_induction_on generalizing path id with
  | refl => exact ⟨[], id, .here id s⟩
  | @head t u hu _ ih =>
    obtain ⟨hn, ⟨-, -, hchildren⟩ | ⟨-, -, hchildren⟩⟩ := displayAlong_eq_some ht
    · rw [hchildren] at hu
      cases hu
    · rw [hchildren] at hu
      obtain ⟨c, hc⟩ := exists_mem_zip hu
      obtain ⟨above, m, hdescent⟩ := ih (displayAlong_of_mem_zip hc)
      exact ⟨id :: above, m, .down hn (hchildren ▸ hc) hdescent⟩

/-- The nodes of the children are the existing children of the node. -/
theorem nodes_filterMap_displayAlong (r : Registry α) (path children : List Text) :
    (children.filterMap (r.displayAlong path)).map (·.node) = children.filterMap r.node? := by
  rw [List.map_filterMap]
  refine List.filterMap_congr fun c _ => ?_
  cases ht : r.displayAlong path c with
  | none =>
    have hnone := isSome_displayAlong r path c
    rw [ht, Option.isSome_none, OrderedMap.contains, eq_comm, Option.isSome_eq_false_iff,
      Option.isNone_iff_eq_none] at hnone
    exact hnone.symm
  | some t => exact (displayAlong_eq_some ht).1.symm

/-- A tree at the end of a path, where the walk has come to the top by way of `path`. -/
theorem isShown_displayAlong {path above : List Text} {id m : Text} {t s : DisplayTree α}
    (ht : r.displayAlong path id = some t) (hpath : path.Nodup) (h : Descent r id t above m s) :
    IsShown r (path.reverse ++ above) m s := by
  induction h generalizing path with
  | here id t =>
    rw [List.append_nil]
    obtain ⟨hn, ⟨hmem, hrepeated, hchildren⟩ | ⟨hmem, hrepeated, hchildren⟩⟩ :=
      displayAlong_eq_some ht
    · exact ⟨hn, List.nodup_reverse.2 hpath, by simp [hrepeated, hmem], fun _ => hchildren,
        by simp [hrepeated]⟩
    · refine ⟨hn, List.nodup_reverse.2 hpath, by simp [hrepeated, hmem], by simp [hrepeated],
        fun _ => ?_⟩
      rw [hchildren, nodes_filterMap_displayAlong]
  | @down id c m n t u s above hn hchild _ ih =>
    obtain ⟨hn', ⟨-, -, hchildren⟩ | ⟨hmem, -, hchildren⟩⟩ := displayAlong_eq_some ht
    · rw [hchildren, List.zip_nil_right] at hchild
      cases hchild
    · obtain rfl := Option.some.inj (hn.symm.trans hn')
      rw [hchildren] at hchild
      -- the path goes on with the id, which it does not hold yet
      have hshown := ih (displayAlong_of_mem_zip hchild) (List.nodup_cons.2 ⟨hmem, hpath⟩)
      rwa [List.reverse_cons, List.append_assoc] at hshown

/-! ## Cycles -/

/-- A path goes down existing links: all of it is reached from the top, and its end is below all of
it. -/
theorem Descent.reaches {id m : Text} {t s : DisplayTree α} {above : List Text}
    (h : Descent r id t above m s) :
    Relation.ReflTransGen (HasChild r.nodes) id m ∧
      ∀ k ∈ above, Relation.ReflTransGen (HasChild r.nodes) id k ∧
        Relation.TransGen (HasChild r.nodes) k m := by
  induction h with
  | here => exact ⟨.refl, by simp⟩
  | down hn hchild _ ih =>
    have hlink := hasChild_of_mem_zip hn hchild
    obtain ⟨hlast, hbelow⟩ := ih
    refine ⟨.head hlink hlast, fun k hk => ?_⟩
    rcases List.mem_cons.1 hk with rfl | hk
    · exact ⟨.refl, .head' hlink hlast⟩
    · exact ⟨.head hlink (hbelow k hk).1, (hbelow k hk).2⟩

/-- A cycle that a node reaches is reached from one of its children. -/
theorem exists_child_of_cycle {κ : Type} {R : κ → κ → Prop} {a z : κ}
    (hreach : Relation.ReflTransGen R a z) (hcycle : Relation.TransGen R z z) :
    ∃ c, R a c ∧ Relation.ReflTransGen R c z := by
  rcases hreach.cases_head with rfl | hdown
  · exact Relation.TransGen.head'_iff.1 hcycle
  · exact hdown

/-- Below a node that reaches a cycle the walk comes to an id of its path. -/
theorem exists_repeated_of_cycle {path : List Text} {id z : Text}
    (hid : r.nodes.contains id = true)
    (hreach : Relation.ReflTransGen (HasChild r.nodes) id z)
    (hcycle : Relation.TransGen (HasChild r.nodes) z z) :
    ∃ t s, r.displayAlong path id = some t ∧ t.Inside s ∧ s.repeated = true := by
  induction path, id using walk_induction r.nodes with
  | step path id ih =>
    obtain ⟨n, hn⟩ := contains_iff_node?.1 hid
    by_cases hpath : id ∈ path
    · exact ⟨_, _, displayAlong_of_mem hn hpath, .refl, rfl⟩
    · obtain ⟨c, ⟨⟨n', hn', hc⟩, hex⟩, hbelow⟩ := exists_child_of_cycle hreach hcycle
      obtain rfl := Option.some.inj (hn.symm.trans hn')
      obtain ⟨t, s, ht, hs, hrepeated⟩ := ih n hn hpath c hex hbelow
      refine ⟨_, s, displayAlong_of_get? hn hpath, .head ?_ hs, hrepeated⟩
      exact List.mem_filterMap.2 ⟨c, hc, ht⟩

/-- **Repetitions are cycles.** An existing node has a display tree, and something in it is marked
as repeated exactly if the node reaches a cycle of existing children. Every tree inside is at the
end of a path of ids. These are pairwise distinct up to the last, which occurs above it exactly if
the tree there is repeated. A repeated tree has no children, and any other has the existing children
of its node, in order. -/
theorem display_repeated_iff_cycle (r : Registry α) {id : Text}
    (hid : r.nodes.contains id = true) :
    ∃ t, r.display id = some t ∧
      ((∃ s, t.Inside s ∧ s.repeated = true) ↔
        ∃ z, Relation.ReflTransGen (HasChild r.nodes) id z ∧
          Relation.TransGen (HasChild r.nodes) z z) ∧
      (∀ s, t.Inside s → ∃ above m, Descent r id t above m s) ∧
      ∀ above m s, Descent r id t above m s → IsShown r above m s := by
  have hsome := isSome_displayAlong r [] id
  rw [hid] at hsome
  obtain ⟨t, ht⟩ := Option.isSome_iff_exists.1 hsome
  have hshown : ∀ above m s, Descent r id t above m s → IsShown r above m s :=
    fun _ _ _ => isShown_displayAlong ht List.nodup_nil
  refine ⟨t, ht, ⟨?_, ?_⟩, fun s hs => exists_descent ht hs, hshown⟩
  · rintro ⟨s, hs, hrepeated⟩
    obtain ⟨above, m, hdescent⟩ := exists_descent ht hs
    have habove := (hshown above m s hdescent).repeated_iff.1 hrepeated
    exact ⟨m, hdescent.reaches.1, (hdescent.reaches.2 m habove).2⟩
  · rintro ⟨z, hreach, hcycle⟩
    obtain ⟨t', s, ht', hs, hrepeated⟩ := exists_repeated_of_cycle hid hreach hcycle
    obtain rfl := Option.some.inj (ht.symm.trans ht')
    exact ⟨s, hs, hrepeated⟩

/-- The tree of `d` goes down to `c` and `b` and comes to `c` again. -/
theorem display_repeated_iff_cycle_entangled :
    entangled.nodes.contains "d" = true ∧
    Relation.ReflTransGen (HasChild entangled.nodes) "d" "c" ∧
    Relation.TransGen (HasChild entangled.nodes) "c" "c" ∧
    ∃ t s, entangled.display "d" = some t ∧ t.Inside s ∧ s.repeated = true ∧
      ∃ above m, Descent entangled "d" t above m s ∧ m ∈ above ∧ s.children = [] := by
  have hd : entangled.nodes.contains "d" = true := by decide +kernel
  have hdc : HasChild entangled.nodes "d" "c" := ⟨⟨_, rfl, by decide⟩, by decide +kernel⟩
  have hcb : HasChild entangled.nodes "c" "b" := ⟨⟨_, rfl, by decide⟩, by decide +kernel⟩
  have hbc : HasChild entangled.nodes "b" "c" := ⟨⟨_, rfl, by decide⟩, by decide +kernel⟩
  have hreach : Relation.ReflTransGen (HasChild entangled.nodes) "d" "c" := .single hdc
  have hcycle : Relation.TransGen (HasChild entangled.nodes) "c" "c" := .head hcb (.single hbc)
  obtain ⟨t, ht, hiff, hdescent, hshown⟩ := display_repeated_iff_cycle entangled hd
  obtain ⟨s, hs, hrepeated⟩ := hiff.2 ⟨"c", hreach, hcycle⟩
  obtain ⟨above, m, hm⟩ := hdescent s hs
  have hisShown := hshown above m s hm
  exact ⟨hd, hreach, hcycle, t, s, ht, hs, hrepeated, above, m, hm,
    hisShown.repeated_iff.1 hrepeated, hisShown.children_of_repeated hrepeated⟩

end Registry

end FormulaGraph
