import FormulaGraph.Proofs.Evaluation.Roots
/-!
# Nested visits

`evaluateAlong` is one walk over a table that stays as it is, and it may call itself because its
steps down make `unvisited` smaller. Here evaluation is a visit that makes further visits and knows
nothing of that. A visit finds the registry as earlier visits have left it, hands it to every visit
that it makes, and writes the value of its node into what comes back. Nothing bounds it but the
depth: how many visits, itself included, may be nested in one another. Where one more is made, there
is no result.

* `Visit.Extends`: the ids on the path of a visit are those of the visits that it is nested in. The
  latest of them exists and was not on the path before, so that there is one id less to go
  (`Visit.Extends.unvisited_lt`).
* `completes_foldlM`: what holds of the visits to single children holds of a loop over them.
* `completes_evaluateNested`: with as much depth as there are ids to go, and one more, nothing is
  cut off, and the result is that of the walk. Writing at once changes neither which nodes there are
  nor what they list, so the ids to go can be counted in the registry before.
-/
namespace FormulaGraph

/-- A visit to the node under an id, made by way of a path with the latest id first. -/
structure Visit where
  path : List Text
  id : Text
  deriving DecidableEq, Repr

/-- A visit to a child in the course of another one. -/
def Visit.down (v : Visit) (child : Text) : Visit := ⟨v.id :: v.path, child⟩

/-- What a visit ends with, and all visits nested in it, each behind the one that makes it. -/
structure Ended (β : Type) where
  result : β
  nested : List (Visit × Visit)

variable {α β δ : Type}

/-- The path of the inner visit is that of the outer one with its id, which exists and is new. -/
structure Visit.Extends (nodes : OrderedMap Text (Node α)) (outer inner : Visit) : Prop where
  path_eq : inner.path = outer.id :: outer.path
  contains : nodes.contains outer.id = true
  fresh : outer.id ∉ outer.path

/-- Every nested visit extends the path of the one that makes it. -/
def Extending (nodes : OrderedMap Text (Node α)) (nested : List (Visit × Visit)) : Prop :=
  ∀ p ∈ nested, p.1.Extends nodes p.2

/-- A visit comes to its end with the result, and the visits nested in it extend their paths. -/
def Completes (nodes : OrderedMap Text (Node α)) (run : Option (Ended β)) (result : β) : Prop :=
  ∃ nested, run = some ⟨result, nested⟩ ∧ Extending nodes nested

variable {nodes : OrderedMap Text (Node α)}

theorem Visit.Extends.unvisited_lt {outer inner : Visit} (h : outer.Extends nodes inner) :
    unvisited nodes.keys inner.path < unvisited nodes.keys outer.path := by
  rw [h.path_eq]
  exact unvisited_cons_lt ((nodes.contains_iff _).1 h.contains) h.fresh

theorem unvisited_le_size (nodes : OrderedMap Text (Node α)) (path : List Text) :
    unvisited nodes.keys path ≤ nodes.size := by
  have := List.length_filter_le (· ∉ path) nodes.keys
  rwa [OrderedMap.keys, List.length_map] at this

theorem extending_nil (nodes : OrderedMap Text (Node α)) : Extending nodes [] :=
  List.forall_mem_nil _

/-- A visit in which none is nested. -/
theorem completes_alone (nodes : OrderedMap Text (Node α)) (result : β) :
    Completes nodes (some ⟨result, []⟩) result :=
  ⟨[], rfl, extending_nil nodes⟩

/-- What is made of a result makes no visits. -/
theorem Completes.map {run : Option (Ended β)} {result : β} (h : Completes nodes run result)
    (f : β → δ) : Completes nodes (run.map fun e => ⟨f e.result, e.nested⟩) (f result) := by
  obtain ⟨nested, rfl, hnested⟩ := h
  exact ⟨nested, rfl, hnested⟩

/-- One more nested visit, with those nested in it. -/
theorem Extending.append {outer inner : Visit} {before within : List (Visit × Visit)}
    (hbefore : Extending nodes before) (h : outer.Extends nodes inner)
    (hwithin : Extending nodes within) : Extending nodes (before ++ (outer, inner) :: within) :=
  List.forall_mem_append.2 ⟨hbefore, List.forall_mem_cons.2 ⟨h, hwithin⟩⟩

/-- A loop completes when each of its steps does, from whatever nested visits there are so far. -/
theorem completes_foldlM (view : δ → β) {f : Ended β → Text → Option (Ended β)}
    {g : δ → Text → δ}
    (hf : ∀ d nested c, Extending nodes nested →
      Completes nodes (f ⟨view d, nested⟩ c) (view (g d c)))
    (children : List Text) (d : δ) {nested : List (Visit × Visit)} (h : Extending nodes nested) :
    Completes nodes (children.foldlM f ⟨view d, nested⟩) (view (children.foldl g d)) := by
  induction children generalizing d nested with
  | nil => exact ⟨nested, rfl, h⟩
  | cons c rest ih =>
    obtain ⟨nested', hrun, hnested'⟩ := hf d nested c h
    rw [List.foldlM_cons, hrun]
    exact ih (g d c) hnested'

namespace Registry

/-! ## Evaluation in place -/

/-- The state of a formula while its children are visited. -/
structure Passage (α : Type) where
  failure : Option Failure
  context : Context α
  registry : Registry α

variable [Scalar α]

/-- Visits one child and adds the value that it holds then to the context. -/
def visitChild (visit : Visit → Registry α → Option (Ended (Outcome α × Registry α)))
    (outer : Visit) (s : Ended (Passage α)) (child : Text) : Option (Ended (Passage α)) :=
  match s.result.registry.node? child with
  | none => some s
  | some n => do
    let ⟨(outcome, registry), within⟩ ← visit (outer.down child) s.result.registry
    some {
      result := {
        failure := s.result.failure.or (failure? outcome)
        context := s.result.context.set n.name ((registry.node? child).getD n).cachedValue
        registry }
      nested := s.nested ++ (outer, outer.down child) :: within }

/-- What a formula comes to when its children have been visited; a value is written into it. -/
def Passage.conclude (s : Passage α) (id source : Text) : Outcome α × Registry α :=
  match s.failure with
  | some f => (.error f, s.registry)
  | none =>
    match evaluateExpression source s.context with
    | .ok x => (.ok x, s.registry.write [(id, x)])
    | .error e => (.error (.expression e), s.registry)

/-- Evaluates a node in place, with at most `depth` visits nested in one another. -/
def evaluateNested : (depth : Nat) → Visit → Registry α → Option (Ended (Outcome α × Registry α))
  | 0, _, _ => none
  | depth + 1, v, r =>
    match r.node? v.id with
    | none => some ⟨(.error (.nodeNotFound v.id), r), []⟩
    | some n =>
      if v.id ∈ v.path then some ⟨(.error (.circular n.name), r), []⟩
      else
        match n.body with
        | .factor x => some ⟨(.ok x, r.write [(v.id, x)]), []⟩
        | .formula expression =>
          match expression.filter (!·.isEmpty) with
          | none => some ⟨(.error (.noFormula n.name), r), []⟩
          | some source =>
            match sharedNames r.nodes n.children with
            | [] =>
              (n.children.foldlM (visitChild (evaluateNested depth) v) ⟨⟨none, .empty, r⟩, []⟩).map
                fun e => ⟨e.result.conclude v.id source, e.nested⟩
            | shared => some ⟨(.error (.ambiguousChildren n.name shared), r), []⟩

/-! ## The depth that is enough -/

/-- A node with notes written is what it was but for its computed value. -/
theorem exists_node?_write {r : Registry α} {id : Text} {n : Node α}
    (hn : r.node? id = some n) (notes : Notes α) :
    ∃ n', (r.write notes).node? id = some n' ∧ n'.meaning = n.meaning ∧
      n'.cachedValue = (notes.lookup id).getD n.cachedValue := by
  rw [node?_write, hn, Option.map_some]
  cases notes.lookup id with
  | none => exact ⟨n, rfl, rfl, rfl⟩
  | some x => exact ⟨{ n with computed := some x }, rfl, rfl, rfl⟩

omit [Scalar α] in
theorem sharedNames_write (r : Registry α) (notes : Notes α) (children : List Text) :
    sharedNames (r.write notes).nodes children = sharedNames r.nodes children :=
  (((agreeOn_write r notes).sameMeaning.sameNames children).sharedNames).symm

/-- The state of the loop when the walk has gathered `g`: its notes are written already. -/
def Gathered.passage (r : Registry α) (g : Gathered α) : Passage α :=
  ⟨g.failure, g.context, r.write g.notes⟩

variable {r : Registry α} {v : Visit}

theorem conclude_passage (r : Registry α) (g : Gathered α) (id source : Text) :
    (g.passage r).conclude id source =
      ((g.conclude id source).1, r.write (g.conclude id source).2) := by
  unfold Passage.conclude Gathered.conclude Gathered.passage
  cases g.failure with
  | some f => rfl
  | none =>
    dsimp only
    cases evaluateExpression source g.context with
    | error e => rfl
    | ok x =>
      dsimp only
      rw [write_write, List.singleton_append]

/-- **One child.** Its visit completes with the result of the walk to it, and so does the step. -/
theorem completes_visitChild {visit : Visit → Registry α → Option (Ended (Outcome α × Registry α))}
    {step : Text → Notes α → Outcome α × Notes α} (hdown : ∀ c, v.Extends r.nodes (v.down c))
    (hvisit : ∀ c notes, Completes r.nodes (visit (v.down c) (r.write notes))
      ((step c notes).1, r.write (step c notes).2))
    (g : Gathered α) (nested : List (Visit × Visit)) (c : Text) (h : Extending r.nodes nested) :
    Completes r.nodes (visitChild visit v ⟨g.passage r, nested⟩ c)
      ((gather r.nodes step g c).passage r) := by
  cases hn : r.node? c with
  | none =>
    have hmissing : (r.write g.notes).node? c = none := by rw [node?_write, hn, Option.map_none]
    refine ⟨nested, ?_, h⟩
    simp only [visitChild, Gathered.passage, hmissing, gather_of_none hn]
  | some n =>
    obtain ⟨n', hn', hmeaning, -⟩ := exists_node?_write hn g.notes
    obtain ⟨within, hrun, hwithin⟩ := hvisit c g.notes
    obtain ⟨after, hafter, -, hcached⟩ := exists_node?_write hn (step c g.notes).2
    have hname : n'.name = n.name := congrArg Prod.fst hmeaning
    have hget : r.nodes.get? c = some n := hn
    refine ⟨nested ++ (v, v.down c) :: within, ?_, h.append (hdown c) hwithin⟩
    simp only [visitChild, Gathered.passage, hn', hrun, gather, hget, hafter, hcached, hname,
      Option.getD_some, Option.bind_eq_bind, Option.bind_some]
    cases (step c g.notes).1 <;> rfl

theorem completes_children {visit : Visit → Registry α → Option (Ended (Outcome α × Registry α))}
    {step : Text → Notes α → Outcome α × Notes α} (hdown : ∀ c, v.Extends r.nodes (v.down c))
    (hvisit : ∀ c notes, Completes r.nodes (visit (v.down c) (r.write notes))
      ((step c notes).1, r.write (step c notes).2))
    (children : List Text) (notes : Notes α) :
    Completes r.nodes
      (children.foldlM (visitChild visit v) ⟨⟨none, .empty, r.write notes⟩, []⟩)
      ((children.foldl (gather r.nodes step) ⟨none, .empty, notes⟩).passage r) :=
  completes_foldlM (Gathered.passage r) (completes_visitChild hdown hvisit) children
    ⟨none, .empty, notes⟩ (extending_nil _)

/-- **Evaluation in place ends.** Where notes are written already, it takes the registry to where
the walk takes the notes. -/
theorem completes_evaluateNested {depth : Nat} (h : unvisited r.nodes.keys v.path < depth)
    (notes : Notes α) :
    Completes r.nodes (evaluateNested depth v (r.write notes))
      ((evaluateAlong r.nodes v.path v.id notes).1,
        r.write (evaluateAlong r.nodes v.path v.id notes).2) := by
  induction depth generalizing v notes with
  | zero => exact absurd h (Nat.not_lt_zero _)
  | succ depth ih =>
    cases hn : r.node? v.id with
    | none =>
      have hmissing : (r.write notes).node? v.id = none := by rw [node?_write, hn, Option.map_none]
      simp only [evaluateNested, hmissing, evaluateAlong_of_none hn]
      exact completes_alone _ _
    | some n =>
      obtain ⟨n', hn', hmeaning, -⟩ := exists_node?_write hn notes
      simp only [Node.meaning, Prod.mk.injEq] at hmeaning
      obtain ⟨hname, hbody, hchildren⟩ := hmeaning
      by_cases hpath : v.id ∈ v.path
      · simp only [evaluateNested, hn', hname, if_pos hpath, evaluateAlong_of_mem hn hpath]
        exact completes_alone _ _
      · simp only [evaluateNested, hn', hname, hbody, hchildren, if_neg hpath,
          evaluateAlong_of_get? hn hpath, sharedNames_write]
        cases n.body with
        | factor x =>
          dsimp only
          rw [write_write, List.singleton_append]
          exact completes_alone _ _
        | formula expression =>
          dsimp only
          cases expression.filter (!·.isEmpty) with
          | none => exact completes_alone _ _
          | some source =>
            dsimp only
            cases sharedNames r.nodes n.children with
            | cons x rest => exact completes_alone _ _
            | nil =>
              have hdown (c : Text) : v.Extends r.nodes (v.down c) :=
                ⟨rfl, contains_iff_node?.2 ⟨n, hn⟩, hpath⟩
              have hvisit (c : Text) (notes : Notes α) :=
                ih (v := v.down c)
                  (Nat.lt_of_lt_of_le (hdown c).unvisited_lt (Nat.le_of_lt_succ h)) notes
              have hloop := completes_children hdown hvisit n.children notes
              have hend := hloop.map fun s => s.conclude v.id source
              rwa [conclude_passage] at hend

end Registry

end FormulaGraph
