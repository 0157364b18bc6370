import FormulaGraph.Proofs.Evaluation.Chains
import FormulaGraph.Proofs.Registry.Assigned
import FormulaGraph.Proofs.Solver.ClosedForm
import FormulaGraph.Proofs.Solver.Secant
/-!
# Solutions that are applied

The solver reads the cached values of the siblings, an applied solution evaluates every root, and an
evaluation of the parent computes the siblings again. The three agree when the siblings are settled
(`SiblingsSettled`): each succeeds, holds the value that it has, and does not depend on the child.
Then the new value of the child moves none of them (`outcomeAlong_assign_of_settled`), and the
parent is evaluated in the context that the solver had, with the solution under the name of the
child (`evaluate_assign`).

* `evaluate_applySolution_algebraic`: after a solution in closed form the parent has the target as
  its value, or divides by zero.
* `evaluate_applySolution_numerical`: after one of the secant method it has a value that is less
  than ten tolerances from the target.
* `applySolution_reaches_target`: both of them.
-/
namespace FormulaGraph.Registry

variable {α : Type} [Scalar α]

/-- Every existing child of the parent but one succeeds, holds the value that it has, and does not
depend on that one. -/
def SiblingsSettled (r : Registry α) (parent child : Text) : Prop :=
  ∀ id ∈ r.childIds parent, id ≠ child → ∀ n, r.node? id = some n →
    (∃ x, (r.evaluate id).1 = .ok x ∧ n.computed = some x) ∧ ¬Reaches r.nodes id child

variable {r : Registry α} {parent child : Text} {p c : Node α} {expr : Expr α} {v : α}

theorem outcomeAlong_assign_self (hc : r.node? child = some c) {path : List Text}
    (hpath : child ∉ path) : outcomeAlong (r.assign child v).nodes path child = .ok v := by
  rw [outcomeAlong_of_get? (node?_assign_self hc v) hpath, ownOutcome]

/-- A sibling has the value behind its parent that it has cached, also when the child has got
another value. -/
theorem outcomeAlong_assign_of_settled (h : Solvable r parent child p c expr)
    (hsettled : SiblingsSettled r parent child) {id : Text} (hid : id ∈ p.children)
    (hne : id ≠ child) {n : Node α} (hn : r.node? id = some n) :
    outcomeAlong (r.assign child v).nodes [parent] id = .ok n.cachedValue := by
  have hlisted : id ∈ r.childIds parent := by rwa [childIds_of_node? h.parent_node]
  obtain ⟨⟨x, hx, hcached⟩, hnot⟩ := hsettled id hlisted hne n hn
  rw [evaluate_eq] at hx
  have hlink : Link r.nodes parent id :=
    ⟨p, h.parent_node, h.isFormula, hid, contains_iff_node?.2 ⟨n, hn⟩⟩
  have hbehind : outcomeAlong r.nodes [parent] id = .ok x := by
    refine outcomeAlong_of_leads hx fun q hq => ?_
    obtain rfl := List.mem_singleton.1 hq
    exact .single hlink
  have hedited : EditedAt child (r.assign child v) r :=
    (editedAt_modify (contains_iff_node?.2 ⟨c, h.child_node⟩) _).symm
  rw [Node.cachedValue, hcached, Option.getD_some]
  exact hedited.unmoved.outcomeAlong_eq_ok
    ⟨fun hdown => hnot hdown.to_reflTransGen, hedited.standing hne⟩ hbehind

/-! ## The context of the parent -/

theorem Solvable.sharedNames_assign (h : Solvable r parent child p c expr) :
    sharedNames (r.assign child v).nodes p.children = [] := by
  rw [← (sameNames_assign r child v p.children).sharedNames, sharedNames_eq_nil_iff]
  exact h.distinct

/-- The children have the values that the solver took for them. -/
theorem childContext_assign (h : Solvable r parent child p c expr)
    (hsettled : SiblingsSettled r parent child) (hne : child ≠ parent) :
    childContext (r.assign child v).nodes p.children
        (outcomeAlong (r.assign child v).nodes [parent]) =
      (r.siblingContext p child).set c.name v := by
  have hdistinct : DistinctNames (r.assign child v).nodes p.children :=
    sharedNames_eq_nil_iff.1 h.sharedNames_assign
  have hself : outcomeAlong (r.assign child v).nodes [parent] child = .ok v :=
    outcomeAlong_assign_self h.child_node (by simp [hne])
  funext name
  by_cases hname : name = c.name
  · subst hname
    rw [Context.set, if_pos rfl, childContext_eq_some_iff hdistinct]
    exact ⟨child, h.listed, _, node?_assign_self h.child_node v, rfl, hself⟩
  · rw [Context.set, if_neg hname]
    refine Option.ext fun x => ?_
    rw [childContext_eq_some_iff hdistinct, siblingContext_eq_some_iff h.distinct]
    constructor
    · rintro ⟨id, hid, n, hn, rfl, hout⟩
      have hid' : id ≠ child := by
        rintro rfl
        obtain rfl := Option.some.inj ((node?_assign_self h.child_node v).symm.trans hn)
        exact hname rfl
      have hn' : r.node? id = some n := (node?_assign_of_ne r hid' v).symm.trans hn
      have hcached := outcomeAlong_assign_of_settled (v := v) h hsettled hid hid' hn'
      exact ⟨id, hid, hid', n, hn', rfl, Except.ok.inj (hcached.symm.trans hout)⟩
    · rintro ⟨id, hid, hid', n, hn, rfl, rfl⟩
      exact ⟨id, hid, n, (node?_assign_of_ne r hid' v).trans hn, rfl,
        outcomeAlong_assign_of_settled h hsettled hid hid' hn⟩

/-- **The parent afterwards.** It is evaluated in the context of the solver, with the new value
under the name of the child. -/
theorem evaluate_assign (h : Solvable r parent child p c expr)
    (hsettled : SiblingsSettled r parent child) (hne : child ≠ parent) :
    ((r.assign child v).evaluate parent).1 =
      (expr.evaluate ((r.siblingContext p child).set c.name v)).mapError
        fun e => .expression (.failed e) := by
  obtain ⟨s, hs, hexpr⟩ := h.parses
  have hp : (r.assign child v).node? parent = some p :=
    (node?_assign_of_ne r hne.symm v).trans h.parent_node
  have hfirst : firstFailure (r.assign child v).nodes p.children
      (outcomeAlong (r.assign child v).nodes [parent]) = none := by
    refine firstFailure_eq_none_iff.2 fun id hid hex => ?_
    by_cases hid' : id = child
    · subst hid'
      exact ⟨v, outcomeAlong_assign_self h.child_node (by simp [hne])⟩
    · obtain ⟨n, hn⟩ := contains_iff_node?.1 hex
      rw [node?_assign_of_ne r hid' v] at hn
      exact ⟨_, outcomeAlong_assign_of_settled h hsettled hid hid' hn⟩
  rw [evaluate_eq]
  dsimp only
  rw [outcomeAlong_of_get? hp List.not_mem_nil, ownOutcome_of_source? hs h.sharedNames_assign]
  simp only [formulaOutcome, hfirst, childContext_assign h hsettled hne, evaluateExpression, hexpr]
  cases expr.evaluate ((r.siblingContext p child).set c.name v) <;> rfl

/-! ## Solutions -/

/-- A solution is applied by giving it to a factor. -/
theorem applySolution_eq_ok_iff {solved : Solved α} {evaluations : Evaluations α}
    {r' : Registry α} : r.applySolution child solved = (.ok evaluations, r') ↔
      ∃ v c, solved.outcome = .ok v ∧ r.node? child = some c ∧ ¬c.isFormula = true ∧
        (r.assign child v).evaluateRoots = (evaluations, r') := by
  unfold applySolution
  constructor
  · intro h
    split at h
    · cases h
    · rename_i v hv
      split at h
      · cases h
      · rename_i c hc
        split at h
        · cases h
        · rename_i hfactor
          obtain ⟨hevaluations, rfl⟩ := Prod.mk.inj h
          exact ⟨v, c, hv, hc, hfactor, Prod.ext (Except.ok.inj hevaluations) rfl⟩
  · rintro ⟨v, c, hv, hc, hfactor, hroots⟩
    have hset : r.setValue child v = (evaluations, r') := hroots
    simp only [hv, hc, if_neg hfactor, hset]

/-- The formula is near the target at an answer of the secant method. -/
theorem solveFormula_numerical {σ : Type} {siblings : Context α} {target : α}
    {settings : SolverSettings α} {draw : σ → Nat × σ} {source : σ}
    (hv : (solveFormula expr siblings c target settings draw source).outcome = .ok v)
    (hm : (solveFormula expr siblings c target settings draw source).method = some .numerical) :
    Secant.NearZero settings (distance expr siblings c.name target v) := by
  unfold solveFormula at hv hm
  cases hinvert : expr.invert c.name target (Expr.evaluate siblings) with
  | some w =>
    rw [hinvert] at hm
    cases hm
  | none =>
    rw [hinvert] at hv
    exact Secant.solve_eq_ok hv

/-- In exact arithmetic a formula that is near the target has a value. -/
theorem exists_of_nearZero_distance {expr : Expr Exact} {siblings : Context Exact} {name : Text}
    {target : Rat} {v : Exact} {settings : SolverSettings Exact}
    (h : Secant.NearZero settings (distance expr siblings name (.value target) v)) :
    ∃ w t : Rat, expr.evaluate (siblings.set name v) = .ok (.value w) ∧
      settings.tolerance = .value t ∧ |w - target| < 10 * t := by
  obtain ⟨a, t, ha, ht, hnear⟩ := Exact.exists_of_nearZero h
  unfold distance at ha
  cases hvalue : expr.evaluate (siblings.set name v) with
  | error e =>
    rw [hvalue] at ha
    cases ha
  | ok x =>
    obtain ⟨w, rfl⟩ := Expr.exists_value_of_evaluate_eq_ok hvalue
    rw [hvalue] at ha
    obtain rfl : w - target = a := Exact.value.inj ha
    exact ⟨w, t, rfl, ht, hnear⟩

section

variable {σ : Type} {settings : SolverSettings α} {draw : σ → Nat × σ} {source : σ} {target : α}
  {solved : Solved α} {evaluations : Evaluations α} {r' : Registry α}

/-- What was solved, and how the parent is evaluated after the solution is applied. -/
theorem evaluate_applySolution (hsettled : SiblingsSettled r parent child)
    (hsolved : r.solveChild parent child target settings draw source = solved)
    (happlied : r.applySolution child solved = (.ok evaluations, r')) :
    ∃ p c expr v, Solvable r parent child p c expr ∧ solved.outcome = .ok v ∧
      solved = solveFormula expr (r.siblingContext p child) c target settings draw source ∧
      (r'.evaluate parent).1 =
        (expr.evaluate ((r.siblingContext p child).set c.name v)).mapError
          fun e => .expression (.failed e) := by
  obtain ⟨v, c, hv, hc, hfactor, hroots⟩ := applySolution_eq_ok_iff.1 happlied
  obtain rfl : (r.assign child v).evaluateRoots.2 = r' := congrArg Prod.snd hroots
  obtain ⟨p, c', expr, hsolvable, -, hstage⟩ :=
    solveChild_eq_ok ((congrArg Solved.outcome hsolved).trans hv)
  obtain rfl := Option.some.inj (hsolvable.child_node.symm.trans hc)
  have hne : child ≠ parent := by
    rintro rfl
    obtain rfl := Option.some.inj (hsolvable.parent_node.symm.trans hc)
    exact hfactor hsolvable.isFormula
  refine ⟨p, c', expr, v, hsolvable, hv, hsolved.symm.trans hstage, ?_⟩
  rw [evaluateRoots, (agreeOn_evaluateEach (r.assign child v) _).evaluate_eq parent]
  exact evaluate_assign hsolvable hsettled hne

end

section

variable {σ : Type} {r r' : Registry Exact} {target : Rat} {settings : SolverSettings Exact}
  {draw : σ → Nat × σ} {source : σ} {solved : Solved Exact} {evaluations : Evaluations Exact}

/-- After a solution in closed form the parent has the target as its value, or divides by zero. -/
theorem evaluate_applySolution_algebraic (hsettled : SiblingsSettled r parent child)
    (hsolved : r.solveChild parent child (.value target) settings draw source = solved)
    (happlied : r.applySolution child solved = (.ok evaluations, r'))
    (hm : solved.method = some .algebraic) :
    (r'.evaluate parent).1 = .ok (.value target) ∨
      (r'.evaluate parent).1 = .error (.expression (.failed .divisionByZero)) := by
  obtain ⟨p, c, expr, v, hsolvable, hv, hstage, hvalue⟩ :=
    evaluate_applySolution hsettled hsolved happlied
  have hinvert : expr.invert c.name (.value target) (Expr.evaluate (r.siblingContext p child)) =
      some v :=
    solveFormula_algebraic (k := solved.iterations) (by rw [← hstage, ← hv, ← hm])
  have hname := siblingContext_child hsolvable.distinct hsolvable.listed hsolvable.child_node
  obtain ⟨hreached, hzero⟩ := Expr.evaluate_of_invert hname hinvert
  rw [hvalue]
  by_cases hbad : expr.ZeroOver (r.siblingContext p child) c.name
  · rw [hzero hbad]
    exact .inr rfl
  · rw [hreached hbad]
    exact .inl rfl

/-- After a solution of the secant method the parent has a value near the target. -/
theorem evaluate_applySolution_numerical (hsettled : SiblingsSettled r parent child)
    (hsolved : r.solveChild parent child (.value target) settings draw source = solved)
    (happlied : r.applySolution child solved = (.ok evaluations, r'))
    (hm : solved.method = some .numerical) :
    ∃ w t : Rat, (r'.evaluate parent).1 = .ok (.value w) ∧ settings.tolerance = .value t ∧
      |w - target| < 10 * t := by
  obtain ⟨p, c, expr, v, hsolvable, hv, hstage, hvalue⟩ :=
    evaluate_applySolution hsettled hsolved happlied
  rw [hstage] at hv hm
  obtain ⟨w, t, hw, ht, hnear⟩ := exists_of_nearZero_distance (solveFormula_numerical hv hm)
  refine ⟨w, t, ?_, ht, hnear⟩
  rw [hvalue, hw]
  rfl

/-- **Solve, apply, evaluate.** A solution is applied while the siblings are settled. If it was
found in closed form, an evaluation of the parent afterwards gives the target whenever it succeeds;
if by the secant method, it succeeds with a value less than ten tolerances from the target. -/
theorem applySolution_reaches_target (hsettled : SiblingsSettled r parent child)
    (hsolved : r.solveChild parent child (.value target) settings draw source = solved)
    (happlied : r.applySolution child solved = (.ok evaluations, r')) :
    (solved.method = some .algebraic → ∀ x, (r'.evaluate parent).1 = .ok x → x = .value target) ∧
      (solved.method = some .numerical → ∃ w t : Rat, (r'.evaluate parent).1 = .ok (.value w) ∧
        settings.tolerance = .value t ∧ |w - target| < 10 * t) := by
  constructor
  · intro hm x hx
    rcases evaluate_applySolution_algebraic hsettled hsolved happlied hm with hok | hzero
    · exact Except.ok.inj (hx.symm.trans hok)
    · cases hx.symm.trans hzero
  · exact evaluate_applySolution_numerical hsettled hsolved happlied

end

/-- Two formulas over `a`, `b` and `s`, where `s` is the double of `b`. Only they have no values. -/
def summed : Registry Exact where
  nodes := .ofList
    [("a", ⟨"a", "a", .factor (.value 1), [], ["p", "q"], some (.value 1), .null, .null⟩),
     ("b", ⟨"b", "b", .factor (.value 2), [], ["s", "p", "q"], some (.value 2), .null, .null⟩),
     ("s", ⟨"s", "s", .formula (some "b * 2"), [.text "b"], ["p", "q"], some (.value 4), .null,
       .null⟩),
     ("p", ⟨"p", "p", .formula (some "a + a + b * s"), [.text "a", .text "b", .text "s"], [], none,
       .null, .null⟩),
     ("q", ⟨"q", "q", .formula (some "b * s - a"), [.text "a", .text "b", .text "s"], [], none,
       .null, .null⟩)]
  roots := ["p"]

theorem siblingsSettled_summed (parent : Text) (h : parent ∈ (["p", "q"] : List Text)) :
    SiblingsSettled summed parent "a" := by
  have hvalues : ∀ id ∈ (["b", "s"] : List Text), ∃ x, (summed.evaluate id).1 = .ok x ∧
      (summed.node? id).map (·.computed) = some (some x) := by
    simp only [List.mem_cons, List.not_mem_nil, or_false, forall_eq_or_imp, forall_eq]
    exact ⟨⟨.value 2, by decide +kernel, rfl⟩, ⟨.value 4, by decide +kernel, rfl⟩⟩
  have hoff : ∀ id ∈ (["b", "s"] : List Text), ¬Reaches summed.nodes id "a" := by
    intro id hid hreach
    have hinside := mem_of_reaches (S := ["b", "s"]) (by decide +kernel) hid hreach
    revert hinside
    decide +kernel
  have hsiblings : ∀ parent ∈ (["p", "q"] : List Text), ∀ id ∈ summed.childIds parent, id ≠ "a" →
      id ∈ (["b", "s"] : List Text) := by decide +kernel
  intro id hid hne n hn
  have hid := hsiblings parent h id hid hne
  obtain ⟨x, hx, hcached⟩ := hvalues id hid
  rw [hn, Option.map_some] at hcached
  exact ⟨⟨x, hx, Option.some.inj hcached⟩, hoff id hid⟩

/-- The value of `a` for which one of the formulas is 18. -/
def summedSolution (parent : Text) : Solved Exact :=
  summed.solveChild parent "a" (.value 18) .standard (fun _ => (0, ())) ()

/-- Where `a` occurs twice it is found by the secant method, alone on one side in closed form. -/
theorem applySolution_reaches_target_summed :
    ((summedSolution "p").method = some .numerical ∧ ∃ w t : Rat,
      ((summed.applySolution "a" (summedSolution "p")).2.evaluate "p").1 = .ok (.value w) ∧
        (SolverSettings.standard : SolverSettings Exact).tolerance = .value t ∧
        |w - 18| < 10 * t) ∧
    (summedSolution "q").method = some .algebraic ∧
      ((summed.applySolution "a" (summedSolution "q")).2.evaluate "q").1 = .ok (.value 18) := by
  have happlied : ∀ (solved : Solved Exact) (v : Exact), solved.outcome = .ok v →
      ∃ evaluations, summed.applySolution "a" solved =
        (.ok evaluations, (summed.applySolution "a" solved).2) := by
    intro solved v hv
    obtain ⟨evaluations, happly⟩ : ∃ evaluations, summed.applySolution "a" solved =
        (.ok evaluations, (summed.assign "a" v).evaluateRoots.2) :=
      ⟨_, applySolution_eq_ok_iff.2 ⟨v, _, hv, rfl, by decide, (Prod.eta _).symm⟩⟩
    exact ⟨evaluations, by rw [happly]⟩
  obtain ⟨_, hp⟩ := happlied (summedSolution "p") (.value 5) (by decide +kernel)
  obtain ⟨_, hq⟩ := happlied (summedSolution "q") (.value (-10)) (by decide +kernel)
  have hnumerical : (summedSolution "p").method = some .numerical := by decide +kernel
  have halgebraic : (summedSolution "q").method = some .algebraic := by decide +kernel
  have hnear := (applySolution_reaches_target
    (siblingsSettled_summed "p" (by decide +kernel)) rfl hp).2
  have hreached := (applySolution_reaches_target
    (siblingsSettled_summed "q" (by decide +kernel)) rfl hq).1
  obtain ⟨x, hx⟩ : ∃ x,
      ((summed.applySolution "a" (summedSolution "q")).2.evaluate "q").1 = .ok x :=
    ⟨.value 18, by decide +kernel⟩
  refine ⟨⟨hnumerical, hnear hnumerical⟩, halgebraic, ?_⟩
  rw [hx, hreached halgebraic x hx]

end FormulaGraph.Registry
