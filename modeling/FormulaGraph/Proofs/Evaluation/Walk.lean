import FormulaGraph.Proofs.Evaluation.Outcome
import Mathlib.Data.List.Pairwise
/-!
# Evaluation walks

`evaluateAlong` goes through the children of a formula with `gather`, which carries the first
failure, the context and the notes from child to child. Here the three are taken apart, and the walk
is put together again from the outcome and the trace of its node.

* `sharedNames_eq_nil_iff`: no name is shared when different existing children have different names.
* `context_foldl_gather`: when all children succeed, the context is that of their outcomes. A child
  that is evaluated again further on is noted again, with the same value.
* `conclude_foldl_gather`: what a formula comes to after its children.
* `evaluateAlong_eq`: an evaluation gives the outcome and puts the trace on the notes it was given.
* `evaluate_eq`: so `evaluate` returns the outcome and writes the trace.
-/
namespace FormulaGraph.Registry

variable {α : Type} {nodes : OrderedMap Text (Node α)}

/-! ## Names that children share -/

theorem nodup_eraseDups {κ : Type} [BEq κ] [LawfulBEq κ] : ∀ l : List κ, l.eraseDups.Nodup
  | [] => by simp
  | a :: rest => by
    rw [List.eraseDups_cons, List.nodup_cons]
    refine ⟨?_, nodup_eraseDups (rest.filter fun b => !b == a)⟩
    simp [List.mem_eraseDups]
termination_by l => l.length
decreasing_by exact Nat.lt_succ_of_le (List.length_filter_le _ _)

theorem sorted_eq_nil_iff {names : List Text} : Text.sorted names = [] ↔ names = [] := by
  rw [← List.length_eq_zero_iff, ← List.length_eq_zero_iff, Text.sorted, List.length_mergeSort]

/-- Different existing children have different names. -/
def DistinctNames (nodes : OrderedMap Text (Node α)) (children : List Text) : Prop :=
  ∀ c ∈ children, ∀ d ∈ children, ∀ n m, nodes.get? c = some n → nodes.get? d = some m →
    n.name = m.name → c = d

theorem sortedUnique_eq_nil_iff {names : List Text} :
    Text.sortedUnique names = [] ↔ names = [] := by
  rw [Text.sortedUnique, sorted_eq_nil_iff]
  cases names with
  | nil => simp
  | cons a rest => simp [List.eraseDups_cons]

theorem filter_count_eq_nil_iff {names : List Text} :
    names.filter (fun n => 1 < names.count n) = [] ↔ names.Nodup := by
  rw [List.filter_eq_nil_iff, List.nodup_iff_count_le_one]
  constructor
  · intro h a
    by_cases ha : a ∈ names
    · simpa using h a ha
    · rw [List.count_eq_zero_of_not_mem ha]
      omega
  · intro h a _
    simpa using h a

theorem sharedNames_eq_nil_iff {children : List Text} :
    sharedNames nodes children = [] ↔ DistinctNames nodes children := by
  have hnodup := nodup_eraseDups children
  rw [sharedNames, sortedUnique_eq_nil_iff, filter_count_eq_nil_iff, List.Nodup,
    List.pairwise_filterMap]
  constructor
  · intro h c hc d hd n m hn hm hname
    by_contra hne
    have : Std.Symm fun a b : Text => ∀ x, (nodes.get? a).map (·.name) = some x →
        ∀ y, (nodes.get? b).map (·.name) = some y → x ≠ y :=
      ⟨fun a b hab x hx y hy he => hab y hy x hx he.symm⟩
    exact h.forall (List.mem_eraseDups.2 hc) (List.mem_eraseDups.2 hd) hne n.name (by simp [hn])
      m.name (by simp [hm]) hname
  · intro h
    refine hnodup.pairwise_of_forall_ne fun c hc d hd hne x hx y hy hxy => hne ?_
    obtain ⟨n, hn, rfl⟩ := Option.map_eq_some_iff.1 hx
    obtain ⟨m, hm, rfl⟩ := Option.map_eq_some_iff.1 hy
    exact h c (List.mem_eraseDups.1 hc) d (List.mem_eraseDups.1 hd) n m hn hm hxy

theorem isNamed_iff {nodes : OrderedMap Text (Node α)} {name id : Text} :
    isNamed nodes name id = true ↔ ∃ n, nodes.get? id = some n ∧ n.name = name := by
  unfold isNamed
  cases nodes.get? id <;> simp

/-- Under a name stands the outcome of the child that has it. -/
theorem childContext_eq_some_iff {nodes : OrderedMap Text (Node α)} {children : List Text}
    {outcome : Text → Outcome α} (hdistinct : DistinctNames nodes children) {name : Text} {x : α} :
    childContext nodes children outcome name = some x ↔
      ∃ id ∈ children, ∃ n, nodes.get? id = some n ∧ n.name = name ∧ outcome id = .ok x := by
  unfold childContext
  constructor
  · intro h
    obtain ⟨id, hfind, hvalue⟩ := Option.bind_eq_some_iff.1 h
    obtain ⟨n, hn, hname⟩ := isNamed_iff.1 (List.find?_some hfind)
    refine ⟨id, List.mem_of_find?_eq_some hfind, n, hn, hname, ?_⟩
    cases hout : outcome id with
    | ok y =>
      rw [hout] at hvalue
      rw [Option.some.inj hvalue]
    | error f =>
      rw [hout] at hvalue
      cases hvalue
  · rintro ⟨id, hid, n, hn, rfl, hout⟩
    cases hfind : children.find? (isNamed nodes n.name) with
    | none => exact absurd (isNamed_iff.2 ⟨n, hn, rfl⟩) (List.find?_eq_none.1 hfind id hid)
    | some d =>
      obtain ⟨m, hm, hname⟩ := isNamed_iff.1 (List.find?_some hfind)
      obtain rfl := hdistinct d (List.mem_of_find?_eq_some hfind) id hid m n hm hn hname
      rw [Option.bind_some, hout, Except.toOption]

/-! ## The children of a formula -/

section

variable [Scalar α] {step : Text → Notes α → Outcome α × Notes α} {outcome : Text → Outcome α}
  {trace : Text → Notes α}

theorem gather_of_none {c : Text} (h : nodes.get? c = none) (g : Gathered α) :
    gather nodes step g c = g := by
  simp [gather, h]

theorem gather_of_get? {c : Text} {n : Node α} (h : nodes.get? c = some n)
    (hstep : ∀ c notes, step c notes = (outcome c, trace c ++ notes)) (g : Gathered α) :
    gather nodes step g c =
      { failure := g.failure.or (failure? (outcome c))
        context := g.context.set n.name (((trace c ++ g.notes).lookup c).getD n.cachedValue)
        notes := trace c ++ g.notes } := by
  simp only [gather, h, hstep]
  cases outcome c <;> rfl

theorem foldl_gather_failure (hstep : ∀ c notes, step c notes = (outcome c, trace c ++ notes))
    (children : List Text) (g : Gathered α) :
    (children.foldl (gather nodes step) g).failure =
      g.failure.or (firstFailure nodes children outcome) := by
  unfold firstFailure
  induction children generalizing g with
  | nil => simp
  | cons c rest ih =>
    rw [List.foldl_cons, ih]
    cases hn : nodes.get? c with
    | none => simp [gather_of_none hn, OrderedMap.contains, hn]
    | some n =>
      rw [gather_of_get? hn hstep, List.filter_cons_of_pos (by simp [OrderedMap.contains, hn]),
        List.findSome?_cons]
      cases failure? (outcome c) <;> simp

theorem foldl_gather_notes (hstep : ∀ c notes, step c notes = (outcome c, trace c ++ notes))
    (children : List Text) (g : Gathered α) :
    (children.foldl (gather nodes step) g).notes =
      (children.filter nodes.contains).reverse.flatMap trace ++ g.notes := by
  induction children generalizing g with
  | nil => simp
  | cons c rest ih =>
    rw [List.foldl_cons, ih]
    cases hn : nodes.get? c with
    | none => simp [gather_of_none hn, OrderedMap.contains, hn]
    | some n =>
      rw [gather_of_get? hn hstep, List.filter_cons_of_pos (by simp [OrderedMap.contains, hn])]
      simp

/-- A name that no child has is left alone. -/
theorem context_foldl_gather_of_unnamed {children : List Text} {name : Text}
    (hstep : ∀ c notes, step c notes = (outcome c, trace c ++ notes))
    (h : ∀ c ∈ children, ∀ n, nodes.get? c = some n → n.name ≠ name) (g : Gathered α) :
    (children.foldl (gather nodes step) g).context name = g.context name := by
  induction children generalizing g with
  | nil => rfl
  | cons c rest ih =>
    rw [List.foldl_cons, ih fun d hd => h d (List.mem_cons_of_mem _ hd)]
    cases hn : nodes.get? c with
    | none => rw [gather_of_none hn]
    | some n =>
      have hne : ¬name = n.name := fun e => h c List.mem_cons_self n hn e.symm
      simp [gather_of_get? hn hstep, Context.set, hne]

/-- The name of a child gets the value that was noted for it. -/
theorem context_foldl_gather_of_mem {children : List Text} {c : Text} {n : Node α} {v : α}
    (hstep : ∀ c notes, step c notes = (outcome c, trace c ++ notes))
    (hdistinct : DistinctNames nodes children) (hc : c ∈ children) (hn : nodes.get? c = some n)
    (hv : (trace c).lookup c = some v) (g : Gathered α) :
    (children.foldl (gather nodes step) g).context n.name = some v := by
  induction children generalizing g with
  | nil => cases hc
  | cons d rest ih =>
    rw [List.foldl_cons]
    by_cases hrest : c ∈ rest
    · refine ih (fun a ha b hb => ?_) hrest _
      exact hdistinct a (List.mem_cons_of_mem _ ha) b (List.mem_cons_of_mem _ hb)
    · obtain rfl : c = d := (List.mem_cons.1 hc).resolve_right hrest
      -- no later child has this name, or it would be the same child
      rw [context_foldl_gather_of_unnamed hstep]
      · simp [gather_of_get? hn hstep, Context.set, List.lookup_append, hv]
      · intro e he m hm hname
        have := hdistinct e (List.mem_cons_of_mem _ he) c List.mem_cons_self m n hm hn hname
        exact hrest (this ▸ he)

theorem context_foldl_gather {children : List Text} (notes : Notes α)
    (hstep : ∀ c notes, step c notes = (outcome c, trace c ++ notes))
    (hdistinct : DistinctNames nodes children)
    (hok : ∀ c ∈ children, nodes.contains c = true →
      ∃ v, outcome c = .ok v ∧ (trace c).lookup c = some v) :
    (children.foldl (gather nodes step) ⟨none, .empty, notes⟩).context =
      childContext nodes children outcome := by
  funext name
  unfold childContext
  cases hfind : children.find? (isNamed nodes name) with
  | none =>
    rw [context_foldl_gather_of_unnamed hstep]
    · rfl
    · intro c hc n hn hname
      have := List.find?_eq_none.1 hfind c hc
      simp [isNamed, hn, hname] at this
  | some c =>
    have hc := List.mem_of_find?_eq_some hfind
    have hnamed := List.find?_some hfind
    obtain ⟨v, hv, hlook⟩ := hok c hc (contains_of_isNamed hnamed)
    cases hn : nodes.get? c with
    | none => simp [isNamed, hn] at hnamed
    | some n =>
      obtain rfl : n.name = name := by simpa [isNamed, hn] using hnamed
      rw [context_foldl_gather_of_mem hstep hdistinct hc hn hlook]
      simp [hv, Except.toOption]

/-- What a formula comes to when its children have been gathered; a value is noted. -/
def Gathered.conclude (g : Gathered α) (id source : Text) : Outcome α × Notes α :=
  match g.failure with
  | some f => (.error f, g.notes)
  | none =>
    match evaluateExpression source g.context with
    | .ok x => (.ok x, (id, x) :: g.notes)
    | .error e => (.error (.expression e), g.notes)

/-- Gathered children give the formula its outcome. Its note stands before theirs. -/
theorem conclude_foldl_gather {children : List Text} (id source : Text) (notes : Notes α)
    (hstep : ∀ c notes, step c notes = (outcome c, trace c ++ notes))
    (hdistinct : DistinctNames nodes children)
    (hok : ∀ c ∈ children, ∀ v, outcome c = .ok v → (trace c).lookup c = some v) :
    (children.foldl (gather nodes step) ⟨none, .empty, notes⟩).conclude id source =
      (formulaOutcome nodes source children outcome,
        noted id (formulaOutcome nodes source children outcome) ++
          ((children.filter nodes.contains).reverse.flatMap trace ++ notes)) := by
  simp only [Gathered.conclude, foldl_gather_failure hstep, foldl_gather_notes hstep,
    Option.none_or, formulaOutcome]
  cases hfirst : firstFailure nodes children outcome with
  | some f => rfl
  | none =>
    have hcontext := context_foldl_gather notes hstep hdistinct fun c hc hex => by
      obtain ⟨v, hv⟩ := firstFailure_eq_none_iff.1 hfirst c hc hex
      exact ⟨v, hv, hok c hc v hv⟩
    simp only [hcontext]
    cases evaluateExpression source (childContext nodes children outcome) <;> rfl

/-! ## A whole walk -/

/-- Among notes of values that nodes have on their own, whatever is noted is looked up. -/
theorem lookup_eq_some_iff_mem {notes : Notes α}
    (h : ∀ m v, (m, v) ∈ notes → outcomeAlong nodes [] m = .ok v) {m : Text} {v : α} :
    notes.lookup m = some v ↔ (m, v) ∈ notes := by
  have hmem : ∀ w, notes.lookup m = some w → (m, w) ∈ notes := by
    intro w hw
    obtain ⟨l₁, l₂, hsplit, -⟩ := List.lookup_eq_some_iff.1 hw
    simp [hsplit]
  refine ⟨hmem v, fun hv => ?_⟩
  cases hl : notes.lookup m with
  | none => simpa using List.lookup_eq_none_iff.1 hl (m, v) hv
  | some w =>
    have := (h m w (hmem w hl)).symm.trans (h m v hv)
    cases this
    rfl

theorem lookup_traceAlong {path : List Text} {id m : Text} {v : α}
    (h : (m, v) ∈ traceAlong nodes path id) : (traceAlong nodes path id).lookup m = some v :=
  (lookup_eq_some_iff_mem fun _ _ => mem_traceAlong).2 h

theorem evaluateAlong_of_none {id : Text} (hn : nodes.get? id = none) (path : List Text)
    (notes : Notes α) : evaluateAlong nodes path id notes = (.error (.nodeNotFound id), notes) := by
  rw [evaluateAlong]
  split <;> simp_all

theorem evaluateAlong_of_mem {path : List Text} {id : Text} {n : Node α}
    (hn : nodes.get? id = some n) (hpath : id ∈ path) (notes : Notes α) :
    evaluateAlong nodes path id notes = (.error (.circular n.name), notes) := by
  rw [evaluateAlong]
  split <;> simp_all

theorem evaluateAlong_of_get? {path : List Text} {id : Text} {n : Node α}
    (hn : nodes.get? id = some n) (hpath : id ∉ path) (notes : Notes α) :
    evaluateAlong nodes path id notes =
      match n.body with
      | .factor x => (.ok x, (id, x) :: notes)
      | .formula expression =>
        match expression.filter (!·.isEmpty) with
        | none => (.error (.noFormula n.name), notes)
        | some source =>
          match sharedNames nodes n.children with
          | [] =>
            (n.children.foldl (gather nodes (evaluateAlong nodes (id :: path)))
              ⟨none, .empty, notes⟩).conclude id source
          | shared => (.error (.ambiguousChildren n.name shared), notes) := by
  rw [evaluateAlong]
  split
  · simp_all
  · rename_i m hm
    obtain rfl := Option.some.inj (hn.symm.trans hm)
    rw [dif_neg hpath]
    rfl

/-- **A walk.** An evaluation gives the outcome of its node and puts the trace on the notes. -/
theorem evaluateAlong_eq (path : List Text) (id : Text) (notes : Notes α) :
    evaluateAlong nodes path id notes =
      (outcomeAlong nodes path id, traceAlong nodes path id ++ notes) := by
  induction path, id using walk_induction nodes generalizing notes with
  | step path id ih =>
    cases hn : nodes.get? id with
    | none => simp [evaluateAlong_of_none hn, outcomeAlong_of_none hn, traceAlong_of_none hn]
    | some n =>
      by_cases hpath : id ∈ path
      · simp [evaluateAlong_of_mem hn hpath, outcomeAlong_of_mem hn hpath, traceAlong_of_mem hpath]
      · rw [evaluateAlong_of_get? hn hpath, traceAlong_of_get? hn hpath,
          outcomeAlong_of_get? hn hpath, ownOutcome, visited, Node.source?, Node.expression?]
        cases n.body with
        | factor v => simp [noted]
        | formula expression =>
          dsimp only
          cases expression.filter (!·.isEmpty) with
          | none => simp [noted]
          | some source =>
            dsimp only
            cases hshared : sharedNames nodes n.children with
            | nil =>
              have hend := conclude_foldl_gather id source notes (ih n hn hpath)
                (sharedNames_eq_nil_iff.1 hshared)
                fun c _ v hv => lookup_traceAlong (mem_traceAlong_self hv)
              simp [hend]
            | cons x rest => simp [noted]

/-! ## Evaluation of a registry -/

omit [Scalar α] in
theorem node?_write (r : Registry α) (notes : Notes α) (id : Text) :
    (r.write notes).node? id = (r.node? id).map fun n =>
      match notes.lookup id with
      | some v => { n with computed := some v }
      | none => n := by
  rw [write, node?, OrderedMap.get?_mapValues]
  rfl

theorem evaluateVisiting_eq (r : Registry α) (path : List Text) (id : Text) :
    r.evaluateVisiting path id =
      (outcomeAlong r.nodes path id, r.write (traceAlong r.nodes path id)) := by
  simp [evaluateVisiting, evaluateAlong_eq]

theorem evaluate_eq (r : Registry α) (id : Text) :
    r.evaluate id = (outcomeAlong r.nodes [] id, r.write (traceAlong r.nodes [] id)) :=
  evaluateVisiting_eq r [] id

end

end FormulaGraph.Registry
