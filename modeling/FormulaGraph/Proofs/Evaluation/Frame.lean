import FormulaGraph.Number.Exact
import FormulaGraph.Proofs.Registry.Links
/-!
# What an evaluation leaves alone

An evaluation writes the notes of its walk and nothing else. A node that is noted is one that the
walk has come to, and it is noted with the value it has on its own (`mem_traceAlong`), along
whatever path the walk came to it. So a node that fails on its own is never written, also where it
lies on a cycle that some of the visits cut off: its last good value stays.

* `reaches_of_mem_traceAlong`: what is noted is reached.
* `node?_evaluate`: a node is what it was, or it was noted and has the noted value.
* `evaluate_changes_only`: the frame of an evaluation.
-/
namespace FormulaGraph.Registry

variable {α : Type} {nodes : OrderedMap Text (Node α)}

theorem keys_write (r : Registry α) (notes : Notes α) : (r.write notes).nodes.keys = r.nodes.keys :=
  OrderedMap.keys_mapValues _ r.nodes

variable [Scalar α]

theorem reaches_of_mem_traceAlong {path : List Text} {id m : Text} {v : α}
    (h : (m, v) ∈ traceAlong nodes path id) : Reaches nodes id m := by
  induction path, id using walk_induction nodes with
  | step path id ih =>
    cases hn : nodes.get? id with
    | none => simp [traceAlong_of_none hn] at h
    | some n =>
      by_cases hpath : id ∈ path
      · simp [traceAlong_of_mem hpath] at h
      · rw [traceAlong_of_get? hn hpath, List.mem_append, mem_noted, List.mem_flatMap] at h
        rcases h with ⟨rfl, -⟩ | ⟨c, hc, hm⟩
        · exact .refl
        · exact .head (link_of_mem_visited hn (List.mem_reverse.1 hc)) (ih n hn hpath c hm)

theorem evaluate_of_mem_traceAlong {r : Registry α} {path : List Text} {id m : Text} {v : α}
    (h : (m, v) ∈ traceAlong r.nodes path id) : (r.evaluate m).1 = .ok v := by
  rw [evaluate_eq]
  exact mem_traceAlong h

/-- A node that is noted has the noted value, and any other is what it was. -/
theorem node?_evaluate (r : Registry α) (id : Text) {m : Text} {n : Node α}
    (hn : r.node? m = some n) :
    (r.evaluate id).2.node? m = some n ∨
      ∃ v, (m, v) ∈ traceAlong r.nodes [] id ∧
        (r.evaluate id).2.node? m = some { n with computed := some v } := by
  rw [evaluate_eq]
  dsimp only
  rw [node?_write, hn, Option.map_some]
  cases hl : (traceAlong r.nodes [] id).lookup m with
  | none => exact .inl rfl
  | some v =>
    obtain ⟨before, behind, hsplit, -⟩ := List.lookup_eq_some_iff.1 hl
    exact .inr ⟨v, by simp [hsplit], rfl⟩

/-- **The frame of an evaluation.** Roots, keys and their order stay, and a node changes in its
computed value at most. It changes only if it is reached and succeeds on its own, and then to the
value that it has on its own. -/
theorem evaluate_changes_only (r : Registry α) (id : Text) :
    (r.evaluate id).2.roots = r.roots ∧ (r.evaluate id).2.nodes.keys = r.nodes.keys ∧
    ∀ m n, r.node? m = some n → ∃ n', (r.evaluate id).2.node? m = some n' ∧
      n'.unevaluated = n.unevaluated ∧
      (¬Reaches r.nodes id m → n' = n) ∧
      (∀ f, (r.evaluate m).1 = .error f → n' = n) ∧
      (∀ v, (r.evaluate m).1 = .ok v → n'.computed = n.computed ∨ n'.computed = some v) := by
  refine ⟨(agreeOn_evaluate r id).roots, keys_write r _, fun m n hn => ?_⟩
  rcases node?_evaluate r id hn with hsame | ⟨v, hv, hnew⟩
  · exact ⟨n, hsame, rfl, fun _ => rfl, fun _ _ => rfl, fun _ _ => .inl rfl⟩
  · have hown : (r.evaluate m).1 = .ok v := evaluate_of_mem_traceAlong hv
    refine ⟨{ n with computed := some v }, hnew, rfl, ?_, ?_, ?_⟩
    · exact fun hnot => absurd (reaches_of_mem_traceAlong hv) hnot
    · intro f hf
      rw [hown] at hf
      cases hf
    · intro w hw
      rw [hown] at hw
      cases hw
      exact .inr rfl

/-- A formula over a factor and a cycle of two formulas. The formulas have values from earlier, the
factor none. -/
def entangled : Registry Exact where
  nodes := .ofList
    [("a", ⟨"a", "a", .factor (.value 3), [], ["d"], none, .null, .null⟩),
     ("b", ⟨"b", "b", .formula (some "a + c"), [.text "a", .text "c"], ["c"], some (.value 7),
       .null, .null⟩),
     ("c", ⟨"c", "c", .formula (some "b"), [.text "b"], ["b", "d"], some (.value 5), .null, .null⟩),
     ("d", ⟨"d", "d", .formula (some "a + c"), [.text "a", .text "c"], [], some (.value 8),
       .null, .null⟩)]
  roots := ["d"]

/-- The walk from `d` writes `a` and meets the cycle twice; `c`, which is on it, keeps its value. -/
theorem evaluate_changes_only_entangled : ∃ a c a' c',
    entangled.node? "a" = some a ∧ (entangled.evaluate "d").2.node? "a" = some a' ∧
    a.computed = none ∧ (entangled.evaluate "a").1 = .ok (.value 3) ∧
    a'.computed = some (.value 3) ∧
    entangled.node? "c" = some c ∧ (entangled.evaluate "d").2.node? "c" = some c' ∧
    (entangled.evaluate "c").1 = .error (.circular "c") ∧ c.computed = some (.value 5) ∧
    c' = c := by
  have hframe := (evaluate_changes_only entangled "d").2.2
  obtain ⟨a', ha', -, -, -, -⟩ := hframe "a" _ rfl
  obtain ⟨c', hc', -, -, hfails, -⟩ := hframe "c" _ rfl
  have ha : (entangled.evaluate "a").1 = .ok (.value 3) := by decide +kernel
  have hc : (entangled.evaluate "c").1 = .error (.circular "c") := by decide +kernel
  have hwritten : ((entangled.evaluate "d").2.node? "a").bind (·.computed) = some (.value 3) := by
    decide +kernel
  rw [ha', Option.bind_some] at hwritten
  exact ⟨_, _, a', c', rfl, ha', rfl, ha, hwritten, rfl, hc', hc, rfl, hfails _ hc⟩

end FormulaGraph.Registry
