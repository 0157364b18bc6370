import FormulaGraph.Registry.Edit
import FormulaGraph.Solver.Inversion
import FormulaGraph.Solver.Secant
/-!
# Solving for a child

`solveChild` finds the value that a child must have for its parent to reach a target. The other
children have their cached values, and the registry stays as it is. The closed form is tried first
(`Expr.invert`), then the secant method on the difference between the formula and the target, from
the current value of the child. `applySolution` gives a factor the value that was found.
-/
namespace FormulaGraph.Registry

variable {α : Type} [Scalar α]

/-- A solve that was refused before any stage was at work. -/
def unsolvable (why : Failure) : Solved α := ⟨.error why, none, 0⟩

/-- The names and cached values of the existing children other than `child`. -/
def siblingContext (r : Registry α) (parent : Node α) (child : Text) : Context α :=
  parent.children.foldl (fun ctx id =>
    if id = child then ctx
    else match r.node? id with
      | none => ctx
      | some n => ctx.set n.name n.cachedValue) Context.empty

/-- How far a formula is from the target when `name` has the value `x`. -/
def distance (expr : Expr α) (siblings : Context α) (name : Text) (target x : α) : α :=
  match expr.evaluate (siblings.set name x) with
  | .ok v => v - target
  | .error _ => Scalar.nan

variable {σ : Type}

/-- Both stages, for a formula in which the name of the child occurs. -/
def solveFormula (expr : Expr α) (siblings : Context α) (child : Node α) (target : α)
    (settings : SolverSettings α) (draw : σ → Nat × σ) (source : σ) : Solved α :=
  match expr.invert child.name target (Expr.evaluate siblings) with
  | some v => ⟨.ok v, some .algebraic, 0⟩
  | none =>
    Secant.solve (distance expr siblings child.name target) child.currentValue settings draw source

/-- The value of a child for which its parent is the target. -/
def solveChild (r : Registry α) (parent child : Text) (target : α) (settings : SolverSettings α)
    (draw : σ → Nat × σ) (source : σ) : Solved α :=
  match r.node? parent, r.node? child with
  | none, _ => unsolvable (.parentNotFound parent)
  | some _, none => unsolvable (.childNotFound child)
  | some p, some c =>
    if !p.isFormula then unsolvable (.parentNotFormula p.name)
    else if child ∉ p.children then unsolvable (.notLinked c.name p.name)
    else
      match p.expression?.filter (!·.isEmpty) with
      | none => unsolvable (.noExpression p.name)
      | some expression =>
        match sharedNames r.nodes p.children with
        | [] =>
          match parseExpression expression with
          | .error e => unsolvable (.expression (.malformed e))
          | .ok (expr : Expr α) =>
            if c.name ∉ expr.names then unsolvable (.notMentioned c.name p.name)
            else solveFormula expr (r.siblingContext p child) c target settings draw source
        | shared => unsolvable (.ambiguousSiblings p.name shared)

/-- Gives a factor the value that was found. -/
def applySolution (r : Registry α) (child : Text) (solved : Solved α) : Edited α × Registry α :=
  match solved.outcome with
  | .error _ => (.error .unsolved, r)
  | .ok v =>
    match r.node? child with
    | none => (.error (.nodeNotFound child), r)
    | some n =>
      if n.isFormula then (.error (.formulaSolution n.name), r)
      else
        let (evaluations, r) := r.setValue child v
        (.ok evaluations, r)

end FormulaGraph.Registry
