import FormulaGraph.Registry.Evaluate
import Mathlib.Data.List.Find
import Mathlib.Data.List.Nodup
import Mathlib.Logic.Relation
/-!
# The outcome of a node along a path

`evaluateAlong` finds outcomes and notes values in one walk, and it reads the values of children
back from the notes. `outcomeAlong` and `traceAlong` tell the two apart: the outcome of a node is a
function of the table and the path alone, without notes and without cached values, and the trace is
the list of what the walk notes. That they are what `evaluateAlong` computes is shown in
`FormulaGraph.Proofs.Evaluation.Walk`.

* `outcomeAlong_of_subset`: a node that succeeds along a path succeeds with the same value along
  every smaller one. So a node that is met on several paths never has two values.
* `mem_traceAlong`: everything noted is the value that the node has on its own.
* `mem_traceAlong_of_reaches`: when a node succeeds, all that it reaches is noted.
* `acyclicBelow_of_ok`: and none of it lies on a cycle.
* `outcomeAlong_congr_of_reaches`: an outcome is made of what the node reaches.
* `outcomeAlong_congr`, `traceAlong_congr`: computed values and annotations have no part in either.

**Links.** `Link` goes from a formula to a child that exists. A factor is a leaf: it has its value
whatever it lists.
-/
namespace FormulaGraph

/-- The expression that a node is evaluated by: that of a formula, unless it is empty. -/
def Node.source? {α : Type} (n : Node α) : Option Text := n.expression?.filter (!·.isEmpty)

/-- What evaluation reads of a node. -/
def Node.meaning {α : Type} (n : Node α) : Text × Body α × List Text := (n.name, n.body, n.children)

namespace Registry

variable {α : Type} {nodes : OrderedMap Text (Node α)}

/-- Induction on walks: every step goes down from a node that is not on its path. -/
theorem walk_induction (nodes : OrderedMap Text (Node α)) {P : List Text → Text → Prop}
    (step : ∀ path id,
      (∀ n, nodes.get? id = some n → id ∉ path → ∀ c, P (id :: path) c) → P path id)
    (path : List Text) (id : Text) : P path id :=
  step path id fun _ hn hpath c =>
    have := unvisited_cons_lt (OrderedMap.mem_keys_of_get? hn) hpath
    walk_induction nodes step (id :: path) c
termination_by unvisited nodes.keys path

/-! ## Links -/

/-- `c` is an existing child of the formula `p`. -/
def Link (nodes : OrderedMap Text (Node α)) (p c : Text) : Prop :=
  ∃ n, nodes.get? p = some n ∧ n.isFormula ∧ c ∈ n.children ∧ nodes.contains c

/-- `m` is `id` or below it. -/
def Reaches (nodes : OrderedMap Text (Node α)) : Text → Text → Prop :=
  Relation.ReflTransGen (Link nodes)

/-- What leads to a node leads on to what the node is linked to. -/
theorem transGen_cons {κ : Type} {R : κ → κ → Prop} {path : List κ} {a b : κ} (hab : R a b)
    (hpath : ∀ p ∈ path, Relation.TransGen R p a) :
    ∀ p ∈ a :: path, Relation.TransGen R p b := by
  intro p hp
  rcases List.mem_cons.1 hp with rfl | hp
  · exact .single hab
  · exact (hpath p hp).tail hab

/-- No node that `id` reaches lies on a cycle. -/
def AcyclicBelow (nodes : OrderedMap Text (Node α)) (id : Text) : Prop :=
  ∀ m, Reaches nodes id m → ¬Relation.TransGen (Link nodes) m m

/-- A table whose links lead down in some rank has no cycle. -/
theorem acyclicBelow_of_rank (rank : Text → Nat)
    (h : ∀ e ∈ nodes.entries, ∀ c ∈ e.2.children, rank c < rank e.1) (id : Text) :
    AcyclicBelow nodes id := by
  have hlink : ∀ p c, Link nodes p c → rank c < rank p := by
    rintro p c ⟨n, hn, -, hc, -⟩
    exact h (p, n) (OrderedMap.get?_eq_some_iff.1 hn) c hc
  have hdown : ∀ p c, Relation.TransGen (Link nodes) p c → rank c < rank p := by
    intro p c hpc
    induction hpc with
    | single hl => exact hlink _ _ hl
    | tail _ hl ih => exact Nat.lt_trans (hlink _ _ hl) ih
  exact fun m _ hcycle => Nat.lt_irrefl _ (hdown m m hcycle)

/-- What is reached from a set that no link leaves is in it. -/
theorem mem_of_reaches {S : List Text}
    (h : ∀ e ∈ nodes.entries, e.1 ∈ S → ∀ c ∈ e.2.children, c ∈ S) {id m : Text} (hid : id ∈ S)
    (hm : Reaches nodes id m) : m ∈ S := by
  induction hm with
  | refl => exact hid
  | tail _ hlink ih =>
    obtain ⟨n, hn, -, hc, -⟩ := hlink
    exact h _ (OrderedMap.get?_eq_some_iff.1 hn) ih _ hc

/-! ## The clauses of a node -/

/-- The failure of an outcome that is one. -/
def failure? : Outcome α → Option Failure
  | .ok _ => none
  | .error f => some f

/-- The first failure among the outcomes of the children that exist. -/
def firstFailure (nodes : OrderedMap Text (Node α)) (children : List Text)
    (outcome : Text → Outcome α) : Option Failure :=
  (children.filter nodes.contains).findSome? fun c => failure? (outcome c)

/-- Whether a child exists and has the name. -/
def isNamed (nodes : OrderedMap Text (Node α)) (name c : Text) : Bool :=
  (nodes.get? c).any fun n => n.name = name

/-- The values of the existing children by their names. -/
def childContext (nodes : OrderedMap Text (Node α)) (children : List Text)
    (outcome : Text → Outcome α) : Context α := fun name =>
  (children.find? (isNamed nodes name)).bind fun c => (outcome c).toOption

/-- The children that are evaluated with a node. -/
def visited (nodes : OrderedMap Text (Node α)) (n : Node α) : List Text :=
  if n.source? ≠ none ∧ sharedNames nodes n.children = [] then n.children.filter nodes.contains
  else []

/-- The note of an outcome that is a value. -/
def noted (id : Text) : Outcome α → Notes α
  | .ok v => [(id, v)]
  | .error _ => []

theorem mem_visited {n : Node α} {c : Text} :
    c ∈ visited nodes n ↔ (n.source? ≠ none ∧ sharedNames nodes n.children = []) ∧
      c ∈ n.children ∧ nodes.contains c = true := by
  unfold visited
  split
  · rename_i h
    simp [h]
  · rename_i h
    simp [h]

theorem isFormula_of_source? {n : Node α} (h : n.source? ≠ none) : n.isFormula = true := by
  unfold Node.isFormula Node.kind
  cases hb : n.body with
  | factor v => simp [Node.source?, Node.expression?, hb] at h
  | formula e => rfl

theorem link_of_mem_visited {id c : Text} {n : Node α} (hn : nodes.get? id = some n)
    (hc : c ∈ visited nodes n) : Link nodes id c := by
  obtain ⟨⟨hs, -⟩, hchild, hex⟩ := mem_visited.1 hc
  exact ⟨n, hn, isFormula_of_source? hs, hchild, hex⟩

theorem firstFailure_eq_none_iff {children : List Text} {outcome : Text → Outcome α} :
    firstFailure nodes children outcome = none ↔
      ∀ c ∈ children, nodes.contains c = true → ∃ v, outcome c = .ok v := by
  rw [firstFailure, List.findSome?_eq_none_iff]
  constructor
  · intro h c hc hex
    have := h c (List.mem_filter.2 ⟨hc, hex⟩)
    cases ho : outcome c with
    | ok v => exact ⟨v, rfl⟩
    | error f => simp [failure?, ho] at this
  · intro h c hc
    obtain ⟨hc, hex⟩ := List.mem_filter.1 hc
    obtain ⟨v, hv⟩ := h c hc hex
    simp [failure?, hv]

theorem firstFailure_congr {children : List Text} {f g : Text → Outcome α}
    (h : ∀ c ∈ children, nodes.contains c = true → f c = g c) :
    firstFailure nodes children f = firstFailure nodes children g := by
  unfold firstFailure
  induction children with
  | nil => rfl
  | cons c rest ih =>
    have ih := ih fun d hd => h d (List.mem_cons_of_mem _ hd)
    by_cases hc : nodes.contains c = true
    · rw [List.filter_cons_of_pos hc, List.findSome?_cons, List.findSome?_cons,
        h c List.mem_cons_self hc, ih]
    · rw [List.filter_cons_of_neg hc, ih]

theorem contains_of_isNamed {name c : Text} (h : isNamed nodes name c = true) :
    nodes.contains c = true := by
  unfold isNamed at h
  cases hn : nodes.get? c with
  | none => simp [hn] at h
  | some n => simp [OrderedMap.contains, hn]

theorem childContext_congr {children : List Text} {f g : Text → Outcome α}
    (h : ∀ c ∈ children, nodes.contains c = true → f c = g c) :
    childContext nodes children f = childContext nodes children g := by
  funext name
  unfold childContext
  cases hc : children.find? (isNamed nodes name) with
  | none => rfl
  | some c =>
    have hex := contains_of_isNamed (List.find?_some hc)
    simp [h c (List.mem_of_find?_eq_some hc) hex]

theorem mem_noted {id m : Text} {o : Outcome α} {v : α} :
    (m, v) ∈ noted id o ↔ m = id ∧ o = .ok v := by
  cases o with
  | ok w => simp [noted, eq_comm]
  | error f => simp [noted]

/-- Tables in which evaluation reads the same under every id. -/
def SameMeaning (nodes nodes' : OrderedMap Text (Node α)) : Prop :=
  ∀ id, (nodes.get? id).map Node.meaning = (nodes'.get? id).map Node.meaning

variable [Scalar α]

/-- The outcome of a formula whose children have the given outcomes: the first failure among them,
or the value of its expression under their names. -/
def formulaOutcome (nodes : OrderedMap Text (Node α)) (source : Text) (children : List Text)
    (outcome : Text → Outcome α) : Outcome α :=
  match firstFailure nodes children outcome with
  | some f => .error f
  | none => (evaluateExpression source (childContext nodes children outcome)).mapError .expression

/-- The outcome of a node whose children have the given outcomes. -/
def ownOutcome (nodes : OrderedMap Text (Node α)) (n : Node α) (outcome : Text → Outcome α) :
    Outcome α :=
  match n.body with
  | .factor v => .ok v
  | .formula _ =>
    match n.source? with
    | none => .error (.noFormula n.name)
    | some source =>
      match sharedNames nodes n.children with
      | [] => formulaOutcome nodes source n.children outcome
      | shared => .error (.ambiguousChildren n.name shared)

/-- The outcome of the node under `id`, reached by way of `path`. -/
def outcomeAlong (nodes : OrderedMap Text (Node α)) (path : List Text) (id : Text) : Outcome α :=
  match _hget : nodes.get? id with
  | none => .error (.nodeNotFound id)
  | some n =>
    if _hpath : id ∈ path then .error (.circular n.name)
    else ownOutcome nodes n fun c => outcomeAlong nodes (id :: path) c
termination_by unvisited nodes.keys path
decreasing_by exact unvisited_cons_lt (OrderedMap.mem_keys_of_get? _hget) _hpath

/-- What a walk from `id`, reached by way of `path`, notes, the latest first. -/
def traceAlong (nodes : OrderedMap Text (Node α)) (path : List Text) (id : Text) : Notes α :=
  match _hget : nodes.get? id with
  | none => []
  | some n =>
    if _hpath : id ∈ path then []
    else
      noted id (outcomeAlong nodes path id) ++
        (visited nodes n).reverse.flatMap fun c => traceAlong nodes (id :: path) c
termination_by unvisited nodes.keys path
decreasing_by exact unvisited_cons_lt (OrderedMap.mem_keys_of_get? _hget) _hpath

theorem outcomeAlong_of_none {id : Text} (h : nodes.get? id = none) (path : List Text) :
    outcomeAlong nodes path id = .error (.nodeNotFound id) := by
  unfold outcomeAlong
  split
  · rfl
  · simp_all

theorem outcomeAlong_of_mem {path : List Text} {id : Text} {n : Node α}
    (h : nodes.get? id = some n) (hpath : id ∈ path) :
    outcomeAlong nodes path id = .error (.circular n.name) := by
  unfold outcomeAlong
  split <;> simp_all

theorem outcomeAlong_of_get? {path : List Text} {id : Text} {n : Node α}
    (h : nodes.get? id = some n) (hpath : id ∉ path) :
    outcomeAlong nodes path id = ownOutcome nodes n (outcomeAlong nodes (id :: path)) := by
  rw [outcomeAlong]
  split <;> simp_all

theorem traceAlong_of_none {id : Text} (h : nodes.get? id = none) (path : List Text) :
    traceAlong nodes path id = [] := by
  unfold traceAlong
  split <;> simp_all

theorem traceAlong_of_mem {path : List Text} {id : Text} (hpath : id ∈ path) :
    traceAlong nodes path id = [] := by
  unfold traceAlong
  split <;> simp_all

theorem traceAlong_of_get? {path : List Text} {id : Text} {n : Node α}
    (h : nodes.get? id = some n) (hpath : id ∉ path) :
    traceAlong nodes path id = noted id (outcomeAlong nodes path id) ++
      (visited nodes n).reverse.flatMap (traceAlong nodes (id :: path)) := by
  rw [traceAlong]
  split <;> simp_all

/-! ## What an outcome depends on -/

theorem ownOutcome_congr {n : Node α} {f g : Text → Outcome α}
    (h : ∀ c ∈ visited nodes n, f c = g c) : ownOutcome nodes n f = ownOutcome nodes n g := by
  unfold ownOutcome
  split
  · rfl
  · split
    · rfl
    · rename_i source hs
      split
      · rename_i hshared
        have hchildren : ∀ c ∈ n.children, nodes.contains c = true → f c = g c := fun c hc hex =>
          h c (mem_visited.2 ⟨⟨by simp [hs], hshared⟩, hc, hex⟩)
        rw [formulaOutcome, formulaOutcome, firstFailure_congr hchildren,
          childContext_congr hchildren]
      · rfl

theorem ownOutcome_of_source? {n : Node α} {source : Text} (hs : n.source? = some source)
    (hnames : sharedNames nodes n.children = []) (f : Text → Outcome α) :
    ownOutcome nodes n f = formulaOutcome nodes source n.children f := by
  cases hb : n.body with
  | factor v => simp [Node.source?, Node.expression?, hb] at hs
  | formula e => simp only [ownOutcome, hb, hs, hnames]

/-- A node succeeds only when all the children evaluated with it do. -/
theorem ok_of_mem_visited {n : Node α} {f : Text → Outcome α} {v : α}
    (h : ownOutcome nodes n f = .ok v) {c : Text} (hc : c ∈ visited nodes n) :
    ∃ w, f c = .ok w := by
  obtain ⟨⟨hs, hshared⟩, hchild, hex⟩ := mem_visited.1 hc
  cases hb : n.body with
  | factor v => simp [Node.source?, Node.expression?, hb] at hs
  | formula e =>
    obtain ⟨source, hs⟩ := Option.ne_none_iff_exists'.1 hs
    simp only [ownOutcome, hb, hs, hshared, formulaOutcome] at h
    split at h
    · cases h
    · rename_i hnone
      exact firstFailure_eq_none_iff.1 hnone c hchild hex

/-- A formula that succeeds has all its existing children evaluated. -/
theorem mem_visited_of_ok {id c : Text} {n : Node α} {f : Text → Outcome α} {v : α}
    (hn : nodes.get? id = some n) (h : ownOutcome nodes n f = .ok v) (hlink : Link nodes id c) :
    c ∈ visited nodes n := by
  obtain ⟨n', hn', hformula, hchild, hex⟩ := hlink
  obtain rfl : n' = n := Option.some.inj (hn'.symm.trans hn)
  rw [mem_visited]
  cases hb : n'.body with
  | factor v => simp [Node.isFormula, Node.kind, hb] at hformula
  | formula e =>
    simp only [ownOutcome, hb] at h
    split at h
    · cases h
    · rename_i source hs
      split at h
      · rename_i hshared
        exact ⟨⟨by simp [hs], hshared⟩, hchild, hex⟩
      · cases h

/-! ## Success does not depend on the path -/

/-- What succeeds was not on its path. -/
theorem of_outcomeAlong_eq_ok {path : List Text} {id : Text} {v : α}
    (h : outcomeAlong nodes path id = .ok v) :
    ∃ n, nodes.get? id = some n ∧ id ∉ path ∧
      ownOutcome nodes n (outcomeAlong nodes (id :: path)) = .ok v := by
  cases hn : nodes.get? id with
  | none =>
    rw [outcomeAlong_of_none hn] at h
    cases h
  | some n =>
    by_cases hpath : id ∈ path
    · rw [outcomeAlong_of_mem hn hpath] at h
      cases h
    · exact ⟨n, rfl, hpath, (outcomeAlong_of_get? hn hpath).symm.trans h⟩

theorem outcomeAlong_of_subset {path : List Text} {id : Text} {v : α}
    (h : outcomeAlong nodes path id = .ok v) {path' : List Text} (hsub : path' ⊆ path) :
    outcomeAlong nodes path' id = .ok v := by
  induction path, id using walk_induction nodes generalizing v path' with
  | step path id ih =>
    obtain ⟨n, hn, hpath, hown⟩ := of_outcomeAlong_eq_ok h
    rw [outcomeAlong_of_get? hn fun hmem => hpath (hsub hmem), ← hown]
    refine ownOutcome_congr fun c hc => ?_
    obtain ⟨w, hw⟩ := ok_of_mem_visited hown hc
    rw [hw, ih n hn hpath c hw (List.cons_subset_cons id hsub)]

/-! ## The trace -/

/-- A walk notes nothing but values that the nodes have on their own. -/
theorem mem_traceAlong {path : List Text} {id m : Text} {v : α}
    (h : (m, v) ∈ traceAlong nodes path id) : outcomeAlong nodes [] m = .ok v := by
  induction path, id using walk_induction nodes with
  | step path id ih =>
    cases hn : nodes.get? id with
    | none => simp [traceAlong_of_none hn] at h
    | some n =>
      by_cases hpath : id ∈ path
      · simp [traceAlong_of_mem hpath] at h
      · rw [traceAlong_of_get? hn hpath, List.mem_append, mem_noted, List.mem_flatMap] at h
        rcases h with ⟨rfl, ho⟩ | ⟨c, -, hc⟩
        · exact outcomeAlong_of_subset ho (List.nil_subset _)
        · exact ih n hn hpath c hc

theorem mem_traceAlong_self {path : List Text} {id : Text} {v : α}
    (h : outcomeAlong nodes path id = .ok v) : (id, v) ∈ traceAlong nodes path id := by
  obtain ⟨n, hn, hpath, -⟩ := of_outcomeAlong_eq_ok h
  rw [traceAlong_of_get? hn hpath]
  exact List.mem_append_left _ (mem_noted.2 ⟨rfl, h⟩)

/-- When a node succeeds, all that it reaches is noted. -/
theorem mem_traceAlong_of_reaches {path : List Text} {id m : Text} {v : α}
    (h : outcomeAlong nodes path id = .ok v) (hm : Reaches nodes id m) :
    ∃ w, (m, w) ∈ traceAlong nodes path id := by
  induction path, id using walk_induction nodes generalizing v with
  | step path id ih =>
    rcases hm.cases_head with rfl | ⟨c, hlink, hm⟩
    · exact ⟨v, mem_traceAlong_self h⟩
    · obtain ⟨n, hn, hpath, hown⟩ := of_outcomeAlong_eq_ok h
      have hc := mem_visited_of_ok hn hown hlink
      obtain ⟨w, hw⟩ := ok_of_mem_visited hown hc
      obtain ⟨x, hx⟩ := ih n hn hpath c hw hm
      refine ⟨x, ?_⟩
      rw [traceAlong_of_get? hn hpath]
      exact List.mem_append_right _ (List.mem_flatMap.2 ⟨c, List.mem_reverse.2 hc, hx⟩)

/-- A walk that succeeds does not meet its path again. -/
theorem not_mem_of_reaches {path : List Text} {id m : Text} {v : α}
    (h : outcomeAlong nodes path id = .ok v) (hm : Reaches nodes id m) : m ∉ path := by
  induction path, id using walk_induction nodes generalizing v with
  | step path id ih =>
    obtain ⟨n, hn, hpath, hown⟩ := of_outcomeAlong_eq_ok h
    rcases hm.cases_head with rfl | ⟨c, hlink, hm⟩
    · exact hpath
    · obtain ⟨w, hw⟩ := ok_of_mem_visited hown (mem_visited_of_ok hn hown hlink)
      exact fun hmem => ih n hn hpath c hw hm (List.mem_cons_of_mem _ hmem)

/-- A node that succeeds has no cycle below it. -/
theorem acyclicBelow_of_ok {path : List Text} {id : Text} {v : α}
    (h : outcomeAlong nodes path id = .ok v) : AcyclicBelow nodes id := by
  intro m hm hcycle
  obtain ⟨w, hw⟩ := mem_traceAlong_of_reaches h hm
  obtain ⟨n, hn, -, hown⟩ := of_outcomeAlong_eq_ok (mem_traceAlong hw)
  obtain ⟨c, hlink, hback⟩ := Relation.TransGen.head'_iff.1 hcycle
  obtain ⟨x, hx⟩ := ok_of_mem_visited hown (mem_visited_of_ok hn hown hlink)
  exact not_mem_of_reaches hx hback List.mem_cons_self

/-! ## What evaluation reads -/

/-- The same of the children exist in both tables, under the same names. -/
def SameNames (nodes nodes' : OrderedMap Text (Node α)) (children : List Text) : Prop :=
  ∀ c ∈ children, (nodes.get? c).map (·.name) = (nodes'.get? c).map (·.name)

section

variable {nodes' : OrderedMap Text (Node α)} {children : List Text}

omit [Scalar α] in
theorem SameMeaning.symm (h : SameMeaning nodes nodes') : SameMeaning nodes' nodes :=
  fun id => (h id).symm

omit [Scalar α] in
theorem SameMeaning.sameNames (h : SameMeaning nodes nodes') (children : List Text) :
    SameNames nodes nodes' children := by
  intro c _
  have := congrArg (Option.map Prod.fst) (h c)
  simpa [Option.map_map, Function.comp_def, Node.meaning] using this

omit [Scalar α] in
theorem SameMeaning.get? (h : SameMeaning nodes nodes') {id : Text} {n : Node α}
    (hn : nodes.get? id = some n) : ∃ n', nodes'.get? id = some n' ∧ n'.meaning = n.meaning := by
  have := h id
  rw [hn, Option.map_some] at this
  exact Option.map_eq_some_iff.1 this.symm

omit [Scalar α] in
theorem SameMeaning.link (h : SameMeaning nodes nodes') {p c : Text} (hlink : Link nodes p c) :
    Link nodes' p c := by
  obtain ⟨n, hn, hformula, hc, hex⟩ := hlink
  obtain ⟨n', hn', hmeaning⟩ := h.get? hn
  simp only [Node.meaning, Prod.mk.injEq] at hmeaning
  obtain ⟨-, hbody, hchildren⟩ := hmeaning
  refine ⟨n', hn', ?_, hchildren ▸ hc, ?_⟩
  · rwa [Node.isFormula, Node.kind, hbody]
  · obtain ⟨child, hchild⟩ := (nodes.contains_eq_true_iff c).1 hex
    obtain ⟨child', hchild', -⟩ := h.get? hchild
    exact (nodes'.contains_eq_true_iff c).2 ⟨child', hchild'⟩

omit [Scalar α] in
theorem SameNames.contains (h : SameNames nodes nodes' children) {c : Text} (hc : c ∈ children) :
    nodes.contains c = nodes'.contains c := by
  have := congrArg Option.isSome (h c hc)
  simpa [OrderedMap.contains] using this

omit [Scalar α] in
theorem SameNames.sharedNames (h : SameNames nodes nodes' children) :
    sharedNames nodes children = sharedNames nodes' children := by
  unfold Registry.sharedNames
  rw [List.filterMap_congr fun c hc => h c (List.mem_eraseDups.1 hc)]

omit [Scalar α] in
theorem SameNames.childContext (h : SameNames nodes nodes' children) (f : Text → Outcome α) :
    childContext nodes children f = childContext nodes' children f := by
  funext name
  have hnamed : ∀ c ∈ children, isNamed nodes name c = isNamed nodes' name c := by
    intro c hc
    have := congrArg (Option.any fun x => decide (x = name)) (h c hc)
    simpa [isNamed, Option.any_map, Function.comp_def] using this
  rw [Registry.childContext, Registry.childContext, List.find?_congr hnamed]

theorem SameNames.formulaOutcome (h : SameNames nodes nodes' children) (source : Text)
    (f : Text → Outcome α) :
    formulaOutcome nodes source children f = formulaOutcome nodes' source children f := by
  have hexisting : children.filter nodes.contains = children.filter nodes'.contains :=
    List.filter_congr fun c hc => h.contains hc
  simp only [Registry.formulaOutcome, firstFailure, hexisting, h.childContext]

end

theorem ownOutcome_congr_nodes {nodes' : OrderedMap Text (Node α)} {n n' : Node α}
    (h : SameNames nodes nodes' n.children) (hn : n.meaning = n'.meaning) (f : Text → Outcome α) :
    ownOutcome nodes n f = ownOutcome nodes' n' f := by
  simp only [Node.meaning, Prod.mk.injEq] at hn
  obtain ⟨hname, hbody, hchildren⟩ := hn
  have hsource : n.source? = n'.source? := by simp [Node.source?, Node.expression?, hbody]
  rw [hchildren] at h
  simp only [ownOutcome, hname, hbody, hchildren, hsource, h.sharedNames, h.formulaOutcome]

omit [Scalar α] in
theorem visited_congr {nodes' : OrderedMap Text (Node α)} {n n' : Node α}
    (h : SameNames nodes nodes' n.children) (hn : n.meaning = n'.meaning) :
    visited nodes n = visited nodes' n' := by
  simp only [Node.meaning, Prod.mk.injEq] at hn
  obtain ⟨-, hbody, hchildren⟩ := hn
  have hsource : n.source? = n'.source? := by simp [Node.source?, Node.expression?, hbody]
  rw [hchildren] at h
  have hexisting : n'.children.filter nodes.contains = n'.children.filter nodes'.contains :=
    List.filter_congr fun c hc => h.contains hc
  simp only [visited, hchildren, hsource, h.sharedNames, hexisting]

/-- An outcome is made of what the node reaches, and of the names of the children there. -/
theorem outcomeAlong_congr_of_reaches {nodes' : OrderedMap Text (Node α)} {path : List Text}
    {id : Text}
    (hmeaning : ∀ k, Reaches nodes id k →
      (nodes.get? k).map Node.meaning = (nodes'.get? k).map Node.meaning)
    (hnames : ∀ k n, Reaches nodes id k → nodes.get? k = some n →
      SameNames nodes nodes' n.children) :
    outcomeAlong nodes path id = outcomeAlong nodes' path id := by
  induction path, id using walk_induction nodes with
  | step path id ih =>
    have hself := hmeaning id .refl
    cases hn : nodes.get? id with
    | none =>
      have hn' : nodes'.get? id = none := by simpa [hn] using hself.symm
      rw [outcomeAlong_of_none hn, outcomeAlong_of_none hn']
    | some n =>
      rw [hn, Option.map_some] at hself
      obtain ⟨n', hn', heq⟩ := Option.map_eq_some_iff.1 hself.symm
      by_cases hpath : id ∈ path
      · rw [outcomeAlong_of_mem hn hpath, outcomeAlong_of_mem hn' hpath]
        rw [show n'.name = n.name from congrArg (·.1) heq]
      · have hchildren : ∀ c ∈ visited nodes n,
            outcomeAlong nodes (id :: path) c = outcomeAlong nodes' (id :: path) c := by
          intro c hc
          have hlink := link_of_mem_visited hn hc
          exact ih n hn hpath c (fun k hk => hmeaning k (.head hlink hk))
            fun k m hk => hnames k m (.head hlink hk)
        rw [outcomeAlong_of_get? hn hpath, outcomeAlong_of_get? hn' hpath,
          ownOutcome_congr hchildren]
        exact ownOutcome_congr_nodes (hnames id n .refl hn) heq.symm _

/-- Two tables that evaluation reads alike give every node the same outcome. -/
theorem outcomeAlong_congr {nodes' : OrderedMap Text (Node α)} (h : SameMeaning nodes nodes')
    (path : List Text) (id : Text) :
    outcomeAlong nodes path id = outcomeAlong nodes' path id :=
  outcomeAlong_congr_of_reaches (fun k _ => h k) fun _ n _ _ => h.sameNames n.children

/-- Walks through two such tables note the same. -/
theorem traceAlong_congr {nodes' : OrderedMap Text (Node α)} (h : SameMeaning nodes nodes')
    (path : List Text) (id : Text) : traceAlong nodes path id = traceAlong nodes' path id := by
  induction path, id using walk_induction nodes with
  | step path id ih =>
    cases hn : nodes.get? id with
    | none =>
      have hn' : nodes'.get? id = none := by simpa [hn] using (h id).symm
      rw [traceAlong_of_none hn, traceAlong_of_none hn']
    | some n =>
      obtain ⟨n', hn', hmeaning⟩ := h.get? hn
      by_cases hpath : id ∈ path
      · rw [traceAlong_of_mem hpath, traceAlong_of_mem hpath]
      · rw [traceAlong_of_get? hn hpath, traceAlong_of_get? hn' hpath, outcomeAlong_congr h,
          funext (ih n hn hpath), visited_congr (h.sameNames n.children) hmeaning.symm]

end Registry

end FormulaGraph
