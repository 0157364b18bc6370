import FormulaGraph.Number.Exact
import FormulaGraph.Proofs.Evaluation.Fresh
/-!
# Evaluating all roots

Roots share nodes, and every evaluation writes into the nodes it comes to, also into those that a
later one reads. Still each of them finds what it would have found alone on the registry as it was
at the start: it reads no computed value (`AgreeOn.sameMeaning`), so that neither its outcome nor
its trace depends on what was written before. All evaluations together are therefore one write of
all their traces (`evaluateEach_eq`).

No two traces note different values for one node, on cyclic graphs as well (`mem_traceAlong`). So it
does not matter in which order the traces are written, or whether one is written twice.

* `get?_outcomes`: what is reported under an id.
* `write_traces_congr`: what is written depends on the set of the evaluated nodes only.
* `evaluateRoots_stable`: evaluating the roots again, or in another order, makes no difference.
-/
namespace FormulaGraph.Registry

variable {α : Type}

/-! ## Writing notes -/

theorem write_congr (r : Registry α) {notes notes' : Notes α}
    (h : ∀ id, notes.lookup id = notes'.lookup id) : r.write notes = r.write notes' := by
  simp only [write, h]

theorem write_nil (r : Registry α) : r.write [] = r := by
  simp [write, OrderedMap.mapValues]

/-- What is written later is looked up first. -/
theorem write_write (r : Registry α) (earlier later : Notes α) :
    (r.write earlier).write later = r.write (later ++ earlier) := by
  simp only [write, OrderedMap.mapValues, List.map_map, Function.comp_def, List.lookup_append,
    Registry.mk.injEq, OrderedMap.mk.injEq, and_true]
  refine List.map_congr_left fun e _ => ?_
  cases later.lookup e.1 with
  | none => rfl
  | some v => cases earlier.lookup e.1 <;> rfl

variable [Scalar α]

/-! ## Several evaluations as one write -/

/-- The outcomes of nodes, each as it is on the given registry. -/
def outcomes (r : Registry α) (ids : List Text) : Evaluations α :=
  ids.foldl (fun evaluations id => evaluations.insert id (r.evaluate id).1) .empty

/-- What the walks from nodes note, the latest first. -/
def traces (nodes : OrderedMap Text (Node α)) (ids : List Text) : Notes α :=
  ids.reverse.flatMap (traceAlong nodes [])

theorem traces_cons (nodes : OrderedMap Text (Node α)) (id : Text) (ids : List Text) :
    traces nodes (id :: ids) = traces nodes ids ++ traceAlong nodes [] id := by
  simp [traces]

theorem traces_congr {nodes nodes' : OrderedMap Text (Node α)} (h : SameMeaning nodes nodes')
    (ids : List Text) : traces nodes ids = traces nodes' ids := by
  rw [traces, traces, funext (traceAlong_congr h [])]

theorem outcomes_congr {r r' : Registry α} (h : SameMeaning r.nodes r'.nodes) (ids : List Text) :
    r.outcomes ids = r'.outcomes ids := by
  simp only [outcomes, evaluate_eq, outcomeAlong_congr h]

theorem evaluateEach_eq (r : Registry α) (ids : List Text) :
    r.evaluateEach ids = (r.outcomes ids, r.write (traces r.nodes ids)) := by
  unfold evaluateEach outcomes
  generalize (OrderedMap.empty : Evaluations α) = evaluations
  induction ids generalizing r evaluations with
  | nil =>
    rw [traces, List.reverse_nil, List.flatMap_nil, write_nil, List.foldl_nil, List.foldl_nil]
  | cons id ids ih =>
    have hsame : SameMeaning (r.evaluate id).2.nodes r.nodes :=
      (agreeOn_evaluate r id).sameMeaning.symm
    have houtcome : ∀ m, ((r.evaluate id).2.evaluate m).1 = (r.evaluate m).1 :=
      (agreeOn_evaluate r id).evaluate_eq
    have hwrite : (r.evaluate id).2 = r.write (traceAlong r.nodes [] id) := by rw [evaluate_eq]
    rw [List.foldl_cons, List.foldl_cons, ih, traces_cons, ← write_write, ← hwrite]
    simp only [houtcome, traces_congr hsame]

/-- Roots that do not exist are evaluated without a trace. -/
theorem evaluateRoots_of_missing {r : Registry α} (h : ∀ root ∈ r.roots, r.node? root = none) :
    r.evaluateRoots.2 = r := by
  have htraces : traces r.nodes r.roots = [] :=
    List.flatMap_eq_nil_iff.2 fun id hid => traceAlong_of_none (h id (List.mem_reverse.1 hid)) []
  rw [evaluateRoots, evaluateEach_eq, htraces, write_nil]

theorem get?_outcomes (r : Registry α) (ids : List Text) (id : Text) :
    (r.outcomes ids).get? id = if id ∈ ids then some (r.evaluate id).1 else none := by
  have hfrom : ∀ evaluations : Evaluations α,
      (ids.foldl (fun evaluations id => evaluations.insert id (r.evaluate id).1)
          evaluations).get? id =
        if id ∈ ids then some (r.evaluate id).1 else evaluations.get? id := by
    induction ids with
    | nil => simp
    | cons first ids ih =>
      intro evaluations
      rw [List.foldl_cons, ih, OrderedMap.get?_insert]
      grind
  exact hfrom .empty

theorem mem_traces {nodes : OrderedMap Text (Node α)} {ids : List Text} {e : Text × α} :
    e ∈ traces nodes ids ↔ ∃ id ∈ ids, e ∈ traceAlong nodes [] id := by
  simp [traces, List.mem_flatMap]

theorem lookup_traces {nodes : OrderedMap Text (Node α)} {ids : List Text} {m : Text} {v : α} :
    (traces nodes ids).lookup m = some v ↔ ∃ id ∈ ids, (m, v) ∈ traceAlong nodes [] id := by
  rw [lookup_eq_some_iff_mem, mem_traces]
  intro m v h
  obtain ⟨id, -, hid⟩ := mem_traces.1 h
  exact mem_traceAlong hid

/-- What is written depends on which nodes are evaluated, not on their order or on repetitions. -/
theorem write_traces_congr (r : Registry α) {ids ids' : List Text}
    (h : ∀ id, id ∈ ids ↔ id ∈ ids') :
    r.write (traces r.nodes ids) = r.write (traces r.nodes ids') := by
  refine write_congr r fun m => Option.ext fun v => ?_
  rw [lookup_traces, lookup_traces]
  simp only [h]

/-- What is evaluated once more gives the same again. -/
theorem evaluateEach_twice (r : Registry α) (ids : List Text) :
    (r.evaluateEach ids).2.evaluateEach ids = r.evaluateEach ids := by
  have hsame : SameMeaning (r.write (traces r.nodes ids)).nodes r.nodes :=
    (agreeOn_write r _).sameMeaning.symm
  rw [evaluateEach_eq r ids, evaluateEach_eq, outcomes_congr hsame, traces_congr hsame, write_write]
  -- notes that are written twice are looked up as before
  refine congrArg (Prod.mk _) (write_congr r fun id => ?_)
  rw [List.lookup_append, Option.or_self]

/-- Those that fail are among the evaluated nodes, each with the failure it has on its own. -/
theorem mem_failures_iff {r : Registry α} {ids : List Text} {id : Text} {f : Failure} :
    (id, f) ∈ failures (r.evaluateEach ids).1 ↔ id ∈ ids ∧ (r.evaluate id).1 = .error f := by
  have hentry : (id, .error f) ∈ (r.evaluateEach ids).1.entries ↔
      id ∈ ids ∧ (r.evaluate id).1 = .error f := by
    rw [evaluateEach_eq, ← OrderedMap.get?_eq_some_iff, get?_outcomes]
    split <;> simp_all
  rw [← hentry, failures, List.mem_filterMap]
  constructor
  · rintro ⟨⟨key, outcome⟩, he, hf⟩
    cases outcome with
    | ok v => cases hf
    | error g =>
      cases hf
      exact he
  · exact fun he => ⟨_, he, rfl⟩

/-! ## The roots -/

/-- **Evaluating the roots is idempotent, and their order does not matter.** A second evaluation
gives the same results and the same registry. With the roots in another order every root has the
same result, which is that of an evaluation of this root alone, and the nodes are the same. -/
theorem evaluateRoots_stable (r : Registry α) :
    r.evaluateRoots.2.evaluateRoots = r.evaluateRoots ∧
    ∀ roots : List Text, roots.Perm r.roots →
      ({ r with roots } : Registry α).evaluateRoots.2.nodes = r.evaluateRoots.2.nodes ∧
      ∀ id, ({ r with roots } : Registry α).evaluateRoots.1.get? id =
        if id ∈ r.roots then some (r.evaluate id).1 else none := by
  have hround : r.evaluateRoots = (r.outcomes r.roots, r.write (traces r.nodes r.roots)) :=
    evaluateEach_eq r r.roots
  constructor
  · have hroots : r.evaluateRoots.2.roots = r.roots := (agreeOn_evaluateEach r r.roots).roots
    rw [evaluateRoots, hroots]
    exact evaluateEach_twice r r.roots
  · intro roots hperm
    have hmem : ∀ id, id ∈ roots ↔ id ∈ r.roots := fun id => hperm.mem_iff
    have houtcomes : ({ r with roots } : Registry α).outcomes roots = r.outcomes roots :=
      outcomes_congr (fun _ => rfl) roots
    have hother : ({ r with roots } : Registry α).evaluateRoots =
        (r.outcomes roots, { r.write (traces r.nodes roots) with roots }) := by
      show evaluateEach _ roots = _
      rw [evaluateEach_eq, houtcomes]
      rfl
    have hnodes :
        (r.write (traces r.nodes roots)).nodes = (r.write (traces r.nodes r.roots)).nodes :=
      congrArg Registry.nodes (write_traces_congr r hmem)
    rw [hother, hround]
    refine ⟨hnodes, fun id => ?_⟩
    rw [get?_outcomes]
    simp only [hmem]

/-- A formula over two factors and two formulas that need each other, each of these above the
formula. One of the roots does not exist and one is there twice. -/
def crossed : Registry Exact where
  nodes := .ofList
    [("a", ⟨"a", "a", .factor (.value 3), [], ["m"], none, .null, .null⟩),
     ("b", ⟨"b", "b", .factor (.value 4), [], ["m"], some (.value 1), .null, .null⟩),
     ("m", ⟨"m", "m", .formula (some "a * b"), [.text "a", .text "b"], ["s", "t"], none, .null,
       .null⟩),
     ("s", ⟨"s", "s", .formula (some "m + t"), [.text "m", .text "t"], ["t"], some (.value 9),
       .null, .null⟩),
     ("t", ⟨"t", "t", .formula (some "s - m"), [.text "s", .text "m"], ["s"], none, .null, .null⟩)]
  roots := ["s", "gone", "m", "s", "t"]

/-- The cycle is cut off at another node when it is entered at another one. -/
theorem evaluateRoots_stable_crossed :
    let turned : Registry Exact := { crossed with roots := ["t", "s", "m", "gone", "s"] }
    turned.roots.Perm crossed.roots ∧
    turned.evaluateRoots.2.nodes = crossed.evaluateRoots.2.nodes ∧
    turned.evaluateRoots.1.get? "s" = some (.error (.circular "s")) ∧
    turned.evaluateRoots.1.get? "t" = some (.error (.circular "t")) ∧
    turned.evaluateRoots.1.get? "m" = some (.ok (.value 12)) := by
  intro turned
  have hperm : turned.roots.Perm crossed.roots := by decide +kernel
  obtain ⟨hnodes, hresults⟩ := (evaluateRoots_stable crossed).2 turned.roots hperm
  have hs : (crossed.evaluate "s").1 = .error (.circular "s") := by decide +kernel
  have ht : (crossed.evaluate "t").1 = .error (.circular "t") := by decide +kernel
  have hm : (crossed.evaluate "m").1 = .ok (.value 12) := by decide +kernel
  refine ⟨hperm, hnodes, ?_, ?_, ?_⟩
  · rw [hresults, if_pos (by decide +kernel), hs]
  · rw [hresults, if_pos (by decide +kernel), ht]
  · rw [hresults, if_pos (by decide +kernel), hm]

end FormulaGraph.Registry
