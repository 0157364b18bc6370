import FormulaGraph.OrderedMap
/-!
# Children before parents

A graph is given by the children of its keys; a child need not be a key. `childrenFirst` lists every
key and every child once, each after all of its own children.

**Procedure.** Nodes without children are ready at once, in the order in which they are first
mentioned. Taking the first ready node may complete the children of waiting ones; these become ready
behind the others, in the order of the keys. A node that still waits when nothing is ready lies on a
cycle or has one below it.
-/
namespace FormulaGraph.Links

variable {κ : Type} [DecidableEq κ]

/-- The children of each key. -/
abbrev Children (κ : Type) := OrderedMap κ (List κ)

/-- The children of a node; a node that is no key has none. -/
def childrenOf (g : Children κ) (n : κ) : List κ := (g.get? n).getD []

/-- Every node, in the order of first mention: each key is followed by its children. -/
def vertices (g : Children κ) : List κ := (g.entries.flatMap fun e => e.1 :: e.2).eraseDups

/-- Whether all children of a node are among the given nodes. -/
def complete (g : Children κ) (done : List κ) (n : κ) : Bool :=
  (childrenOf g n).all fun c => c ∈ done

/-- The waiting nodes that have become complete. -/
def freed (g : Children κ) (done waiting : List κ) : List κ := waiting.filter (complete g done)

/-- The waiting nodes that have not. -/
def blocked (g : Children κ) (done waiting : List κ) : List κ :=
  waiting.filter fun n => !complete g done n

theorem length_freed_add_blocked (g : Children κ) (done waiting : List κ) :
    (freed g done waiting).length + (blocked g done waiting).length = waiting.length := by
  induction waiting with
  | nil => rfl
  | cons n rest ih =>
    simp only [freed, blocked, List.filter_cons, List.length_cons] at ih ⊢
    cases complete g done n <;> simp <;> omega

/-- Takes ready nodes one by one; gives the order and the nodes left waiting. -/
def takeReady (g : Children κ) (done ready waiting : List κ) : List κ × List κ :=
  match ready with
  | [] => (done, waiting)
  | n :: rest =>
    let done' := done ++ [n]
    takeReady g done' (rest ++ freed g done' waiting) (blocked g done' waiting)
termination_by ready.length + waiting.length
decreasing_by
  have := length_freed_add_blocked g (done ++ [n]) waiting
  simp only [List.length_append, List.length_cons]
  omega

/-- The nodes that cannot be put after all of their children, because of a cycle. -/
structure CycleError (κ : Type) where
  remaining : List κ
  deriving DecidableEq, Repr

def CycleError.message (e : CycleError κ) : String :=
  s!"Cycle detected among {e.remaining.length} node(s)"

/-- All nodes, children before parents. -/
def childrenFirst (g : Children κ) : Except (CycleError κ) (List κ) :=
  let ready := (vertices g).filter fun n => (childrenOf g n).isEmpty
  let waiting := g.keys.filter fun n => !(childrenOf g n).isEmpty
  match takeReady g [] ready waiting with
  | (order, []) => .ok order
  | (_, waiting) => .error ⟨waiting⟩

end FormulaGraph.Links
