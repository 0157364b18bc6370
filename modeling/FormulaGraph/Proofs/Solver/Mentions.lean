import FormulaGraph.Proofs.Solver.ClosedForm
/-!
# Names that are mentioned

The value of an expression depends on the values of its names and on nothing else, and it depends on
all of them. Operands are evaluated from left to right up to the first failure, so it may be a
division by zero, or a value that is not finite, that hides a name without a value; but where a name
is missing there is always some failure, as no operand is ever passed over.

The solver relies on it. In closed form it inverts an operation through the operand that is not the
wanted name, and it does not look whether the name occurs in there: it evaluates the operand among
the siblings, which have no value for the name, and takes the failure for an answer.

* `Expr.exists_rest_of_invert`: a side that was inverted does not mention the name.
* `evaluate_depends_on_names`: what evaluation depends on, and what the solver makes of it.
-/
namespace FormulaGraph

variable {α : Type} [Scalar α]

/-- Where the name has no value, an operation is inverted through an operand without the name. -/
theorem Expr.exists_rest_of_invert {ctx : Context α} {expr : Expr α} {name : Text} {target x : α}
    (hname : ctx name = none) (h : expr.invert name target (Expr.evaluate ctx) = some x) :
    ∃ op rest w, rest.evaluate ctx = .ok w ∧ name ∉ rest.names ∧
      (expr = .binary op (.var name) rest ∧ invertLeft op w target = some x ∨
        expr = .binary op rest (.var name) ∧ invertRight op w target = some x) := by
  obtain ⟨op, rest, w, hrest, hside⟩ := invert_eq_some h
  exact ⟨op, rest, w, hrest, not_mem_names_of_evaluate_eq_ok hrest hname, hside⟩

namespace Registry

variable {σ : Type}

/-- **What an expression depends on.** Contexts that agree on its names give it the same value or
the same failure, and a context that lacks one of them gives it a failure. So an answer in closed
form is always that of an operation between the name of the child and an expression that does not
mention it. -/
theorem evaluate_depends_on_names :
    (∀ (e : Expr α) (ctx ctx' : Context α), (∀ n ∈ e.names, ctx n = ctx' n) →
      e.evaluate ctx = e.evaluate ctx') ∧
    (∀ (e : Expr α) (ctx : Context α), ∀ n ∈ e.names, ctx n = none →
      ∃ f, e.evaluate ctx = .error f) ∧
    ∀ (r : Registry α) (parent child : Text) (target v : α) (settings : SolverSettings α)
      (draw : σ → Nat × σ) (source : σ),
      (r.solveChild parent child target settings draw source).outcome = .ok v →
      (r.solveChild parent child target settings draw source).method = some .algebraic →
      ∃ p c s expr, r.node? parent = some p ∧ r.node? child = some c ∧ p.expression? = some s ∧
        parseExpression s = .ok expr ∧
        ∃ op rest w, rest.evaluate (r.siblingContext p child) = .ok w ∧ c.name ∉ rest.names ∧
          (expr = .binary op (.var c.name) rest ∧ Expr.invertLeft op w target = some v ∨
            expr = .binary op rest (.var c.name) ∧ Expr.invertRight op w target = some v) := by
  refine ⟨fun e ctx ctx' => Expr.evaluate_congr,
    fun e ctx n hn hctx => Expr.exists_error_of_mem_names hn hctx, ?_⟩
  intro r parent child target v settings draw source hv hm
  obtain ⟨k, h⟩ : ∃ k, r.solveChild parent child target settings draw source =
      ⟨.ok v, some .algebraic, k⟩ := ⟨_, by rw [← hv, ← hm]⟩
  obtain ⟨p, c, s, expr, hp, hc, hchild, hdistinct, hs, hexpr, hinvert⟩ := solveChild_algebraic h
  have hname := siblingContext_child hdistinct hchild hc
  exact ⟨p, c, s, expr, hp, hc, hs, hexpr, Expr.exists_rest_of_invert hname hinvert⟩

/-- The name `b` has no value. The sum `a / 0 + b` divides by zero before it comes to `b`, and
`b + a / 0` does not come to the division; for `a / 0` it makes no difference. In `b / a` the name
`a` is searched through the other. -/
theorem evaluate_depends_on_names_ratio :
    let quotient : Expr Exact := .binary .div (.var "a") (.num (.value 0))
    let ctx : Context Exact := Context.empty.set "a" (.value 6)
    (∀ n ∈ quotient.names, ctx n = ctx.set "b" (.value 2) n) ∧
    quotient.evaluate ctx = quotient.evaluate (ctx.set "b" (.value 2)) ∧
    ctx "b" = none ∧
    (∃ f, (Expr.binary .add quotient (.var "b")).evaluate ctx = .error f) ∧
    (∃ f, (Expr.binary .add (.var "b") quotient).evaluate ctx = .error f) ∧
    let solved := (ratioOver 6).solveChild "p" "a" (.value 2) .standard (fun _ => (0, ())) ()
    solved.outcome = .ok (.value 3) ∧ solved.method = some .algebraic ∧
    ∃ p c s, ∃ expr : Expr Exact, (ratioOver 6).node? "p" = some p ∧
      (ratioOver 6).node? "a" = some c ∧ p.expression? = some s ∧ parseExpression s = .ok expr ∧
      ∃ op rest, c.name ∉ rest.names ∧
        (expr = .binary op (.var c.name) rest ∨ expr = .binary op rest (.var c.name)) := by
  intro quotient ctx
  obtain ⟨hsame, hmissing, hsolver⟩ := evaluate_depends_on_names (α := Exact) (σ := Unit)
  have hagree : ∀ n ∈ quotient.names, ctx n = ctx.set "b" (.value 2) n := by decide +kernel
  have hb : ctx "b" = none := by decide +kernel
  refine ⟨hagree, hsame quotient _ _ hagree, hb, hmissing _ ctx "b" (by decide +kernel) hb,
    hmissing _ ctx "b" (by decide +kernel) hb, ?_⟩
  intro solved
  have hv : solved.outcome = .ok (.value 3) := by decide +kernel
  have hm : solved.method = some .algebraic := by decide +kernel
  obtain ⟨p, c, s, expr, hp, hc, hs, hexpr, op, rest, w, -, hrest, hside⟩ :=
    hsolver _ _ _ _ _ _ _ _ hv hm
  exact ⟨hv, hm, p, c, s, expr, hp, hc, hs, hexpr, op, rest, hrest,
    hside.imp And.left And.left⟩

end Registry

end FormulaGraph
