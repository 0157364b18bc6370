import FormulaGraph.Proofs.Evaluation.Walk
import FormulaGraph.Proofs.Solver.Inversion
import FormulaGraph.Solver.Solve
/-!
# Solving for a child in closed form

**Results.**
* `siblingContext_eq_some_iff`: under the names of the other existing children stand their cached
  values, and nothing else; so the name of the child itself is free.
* `solveChild_eq_ok`: what was checked when there is an answer, and `solveChild_algebraic`: what was
  inverted when the closed form gave it.
* `solveChild_reaches_target_iff`: in exact arithmetic an answer in closed form gives the parent the
  target, except where the parent divides zero by the child (`Expr.ZeroOver`); there the answer is
  zero, with which the parent cannot be evaluated.
-/
namespace FormulaGraph.Registry

/-! ## The values of the siblings -/

section

variable {α : Type} [Scalar α] {r : Registry α} {child : Text}

/-- One child of the parent entered into a context. -/
def enterSibling (r : Registry α) (child : Text) (ctx : Context α) (id : Text) : Context α :=
  if id = child then ctx
  else match r.node? id with
    | none => ctx
    | some n => ctx.set n.name n.cachedValue

theorem enterSibling_of_ne {ctx : Context α} {id name : Text}
    (h : ∀ n, r.node? id = some n → id ≠ child → n.name ≠ name) :
    r.enterSibling child ctx id name = ctx name := by
  unfold enterSibling
  split
  · rfl
  · rename_i hid
    cases hn : r.node? id with
    | none => rfl
    | some n => exact if_neg fun heq => h n hn hid heq.symm

theorem foldl_enterSibling_of_ne {children : List Text} {name : Text}
    (h : ∀ id ∈ children, ∀ n, r.node? id = some n → id ≠ child → n.name ≠ name)
    (ctx : Context α) : children.foldl (r.enterSibling child) ctx name = ctx name := by
  induction children generalizing ctx with
  | nil => rfl
  | cons id ids ih =>
    obtain ⟨hid, hids⟩ := List.forall_mem_cons.1 h
    rw [List.foldl_cons, ih hids, enterSibling_of_ne hid]

/-- The name of a sibling keeps the value that it was given, as no other child has the name. -/
theorem foldl_enterSibling_of_mem {children : List Text} {id : Text} {n : Node α}
    (hdistinct : DistinctNames r.nodes children) (hid : id ∈ children) (hne : id ≠ child)
    (hn : r.node? id = some n) (ctx : Context α) :
    children.foldl (r.enterSibling child) ctx n.name = some n.cachedValue := by
  induction children generalizing ctx with
  | nil => cases hid
  | cons d ds ih =>
    have hrest : DistinctNames r.nodes ds := fun a ha b hb =>
      hdistinct a (List.mem_cons_of_mem _ ha) b (List.mem_cons_of_mem _ hb)
    by_cases hmem : id ∈ ds
    · exact ih hrest hmem _
    · obtain rfl : id = d := (List.mem_cons.1 hid).resolve_right hmem
      rw [List.foldl_cons, foldl_enterSibling_of_ne]
      · simp [enterSibling, hne, hn, Context.set]
      · intro k hk m hm _ hname
        have := hdistinct id List.mem_cons_self k (List.mem_cons_of_mem _ hk) n m hn hm hname.symm
        exact hmem (this ▸ hk)

theorem of_foldl_enterSibling {children : List Text} {ctx : Context α} {name : Text} {x : α}
    (h : children.foldl (r.enterSibling child) ctx name = some x) :
    ctx name = some x ∨ ∃ id ∈ children, id ≠ child ∧
      ∃ n, r.node? id = some n ∧ n.name = name ∧ n.cachedValue = x := by
  induction children generalizing ctx with
  | nil => exact .inl h
  | cons d ds ih =>
    rcases ih h with hd | ⟨id, hid, hrest⟩
    · by_cases hne : d = child
      · exact .inl (by simpa [enterSibling, hne] using hd)
      · cases hn : r.node? d with
        | none => exact .inl (by simpa [enterSibling, hne, hn] using hd)
        | some n =>
          by_cases hname : n.name = name
          · subst hname
            have hx : n.cachedValue = x := by
              simpa [enterSibling, hne, hn, Context.set] using hd
            exact .inr ⟨d, List.mem_cons_self, hne, n, hn, rfl, hx⟩
          · have : ¬name = n.name := fun heq => hname heq.symm
            exact .inl (by simpa [enterSibling, hne, hn, Context.set, this] using hd)
    · exact .inr ⟨id, List.mem_cons_of_mem _ hid, hrest⟩

variable {p : Node α}

theorem siblingContext_eq_some_iff (hdistinct : DistinctNames r.nodes p.children) {name : Text}
    {x : α} :
    r.siblingContext p child name = some x ↔
      ∃ id ∈ p.children, id ≠ child ∧
        ∃ n, r.node? id = some n ∧ n.name = name ∧ n.cachedValue = x := by
  change p.children.foldl (r.enterSibling child) Context.empty name = some x ↔ _
  constructor
  · intro h
    exact (of_foldl_enterSibling h).resolve_left nofun
  · rintro ⟨id, hid, hne, n, hn, rfl, rfl⟩
    exact foldl_enterSibling_of_mem hdistinct hid hne hn _

/-- The child itself has no value among its siblings. -/
theorem siblingContext_child (hdistinct : DistinctNames r.nodes p.children)
    (hchild : child ∈ p.children) {c : Node α} (hc : r.node? child = some c) :
    r.siblingContext p child c.name = none := by
  refine Option.eq_none_iff_forall_ne_some.2 fun x hx => ?_
  obtain ⟨id, hid, hne, n, hn, hname, -⟩ := (siblingContext_eq_some_iff hdistinct).1 hx
  exact hne (hdistinct id hid child hchild n c hn hc hname)

end

/-! ## Answers in closed form -/

section

variable {α σ : Type} [Scalar α]

theorem search_method (f : α → α) (settings : SolverSettings α) (draw : σ → Nat × σ)
    (remaining iteration : Nat) (s : Secant.State α σ) :
    (Secant.search f settings draw remaining iteration s).method = some .numerical := by
  induction remaining generalizing iteration s with
  | zero =>
    unfold Secant.search Secant.lastResort
    split
    · rfl
    · rfl
  | succ remaining ih =>
    unfold Secant.search
    split
    · rfl
    · split
      · exact ih _ _
      · dsimp only
        split
        · rfl
        · split
          · rfl
          · exact ih _ _

theorem solve_method (f : α → α) (guess : α) (settings : SolverSettings α) (draw : σ → Nat × σ)
    (source : σ) : (Secant.solve f guess settings draw source).method = some .numerical :=
  search_method f settings draw _ 1 _

theorem solveFormula_algebraic {expr : Expr α} {siblings : Context α} {child : Node α}
    {target v : α} {settings : SolverSettings α} {draw : σ → Nat × σ} {source : σ} {k : Int}
    (h : solveFormula expr siblings child target settings draw source =
      ⟨.ok v, some .algebraic, k⟩) :
    expr.invert child.name target (Expr.evaluate siblings) = some v := by
  unfold solveFormula at h
  split at h
  · rename_i w hinvert
    rw [hinvert, (Except.ok.inj (congrArg Solved.outcome h) : w = v)]
  · have hnumerical := congrArg Solved.method h
    rw [solve_method] at hnumerical
    cases hnumerical

/-- What is checked before one of the stages is at work: `c` is a child of the formula `p` with the
expression `expr`, and no two of the children share a name. -/
structure Solvable (r : Registry α) (parent child : Text) (p c : Node α) (expr : Expr α) :
    Prop where
  parent_node : r.node? parent = some p
  child_node : r.node? child = some c
  listed : child ∈ p.children
  distinct : DistinctNames r.nodes p.children
  parses : ∃ s, p.source? = some s ∧ parseExpression s = .ok expr

theorem Solvable.isFormula {r : Registry α} {parent child : Text} {p c : Node α} {expr : Expr α}
    (h : Solvable r parent child p c expr) : p.isFormula = true := by
  obtain ⟨s, hs, -⟩ := h.parses
  exact isFormula_of_source? (by simp [hs])

/-- An answer is that of one of the stages, after the checks. -/
theorem solveChild_eq_ok {r : Registry α} {parent child : Text} {target v : α}
    {settings : SolverSettings α} {draw : σ → Nat × σ} {source : σ}
    (h : (r.solveChild parent child target settings draw source).outcome = .ok v) :
    ∃ p c expr, Solvable r parent child p c expr ∧ c.name ∈ expr.names ∧
      r.solveChild parent child target settings draw source =
        solveFormula expr (r.siblingContext p child) c target settings draw source := by
  have hrefused : ∀ why : Failure, (unsolvable why : Solved α).outcome ≠ .ok v := fun _ => nofun
  unfold solveChild at h ⊢
  split at h
  · exact absurd h (hrefused _)
  · exact absurd h (hrefused _)
  · rename_i p c hp hc
    split at h
    · exact absurd h (hrefused _)
    · rename_i hformula
      split at h
      · exact absurd h (hrefused _)
      · rename_i hchild
        split at h
        · exact absurd h (hrefused _)
        · rename_i s hs
          split at h
          · rename_i hshared
            split at h
            · exact absurd h (hrefused _)
            · rename_i expr hexpr
              split at h
              · exact absurd h (hrefused _)
              · rename_i hname
                refine ⟨p, c, expr, ⟨hp, hc, not_not.1 hchild, sharedNames_eq_nil_iff.1 hshared,
                  s, hs, hexpr⟩, not_not.1 hname, ?_⟩
                rw [if_neg hformula, if_neg hchild, if_neg hname]
          · exact absurd h (hrefused _)

/-- What was checked, and what was inverted. -/
theorem solveChild_algebraic {r : Registry α} {parent child : Text} {target v : α}
    {settings : SolverSettings α} {draw : σ → Nat × σ} {source : σ} {k : Int}
    (h : r.solveChild parent child target settings draw source = ⟨.ok v, some .algebraic, k⟩) :
    ∃ p c s expr, r.node? parent = some p ∧ r.node? child = some c ∧ child ∈ p.children ∧
      DistinctNames r.nodes p.children ∧ p.expression? = some s ∧ parseExpression s = .ok expr ∧
      expr.invert c.name target (Expr.evaluate (r.siblingContext p child)) = some v := by
  obtain ⟨p, c, expr, ⟨hp, hc, hchild, hdistinct, s, hs, hexpr⟩, -, heq⟩ :=
    solveChild_eq_ok (congrArg Solved.outcome h)
  exact ⟨p, c, s, expr, hp, hc, hchild, hdistinct, (Option.filter_eq_some_iff.1 hs).1, hexpr,
    solveFormula_algebraic (heq.symm.trans h)⟩

end

/-- In exact arithmetic an answer in closed form gives the parent the target exactly when the parent
does not divide zero by the child. -/
theorem solveChild_reaches_target_iff {σ : Type} {r : Registry Exact} {parent child : Text}
    {target : Rat} {v : Exact} {settings : SolverSettings Exact} {draw : σ → Nat × σ} {source : σ}
    (hv : (r.solveChild parent child (.value target) settings draw source).outcome = .ok v)
    (hm : (r.solveChild parent child (.value target) settings draw source).method =
      some .algebraic) :
    ∃ p c s expr, r.node? parent = some p ∧ r.node? child = some c ∧ p.expression? = some s ∧
      parseExpression s = .ok expr ∧
      (expr.evaluate ((r.siblingContext p child).set c.name v) = .ok (.value target) ↔
        ¬expr.ZeroOver (r.siblingContext p child) c.name) ∧
      (expr.ZeroOver (r.siblingContext p child) c.name →
        expr.evaluate ((r.siblingContext p child).set c.name v) = .error .divisionByZero) := by
  obtain ⟨k, h⟩ : ∃ k, r.solveChild parent child (.value target) settings draw source =
      ⟨.ok v, some .algebraic, k⟩ := ⟨_, by rw [← hv, ← hm]⟩
  obtain ⟨p, c, s, expr, hp, hc, hchild, hdistinct, hs, hexpr, hinvert⟩ := solveChild_algebraic h
  have hname := siblingContext_child hdistinct hchild hc
  obtain ⟨hreached, hzero⟩ := Expr.evaluate_of_invert hname hinvert
  refine ⟨p, c, s, expr, hp, hc, hs, hexpr, ⟨fun hvalue hbad => ?_, hreached⟩, hzero⟩
  rw [hzero hbad] at hvalue
  cases hvalue

/-- The formula `b / a`. -/
def ratio : Node Exact :=
  ⟨"p", "p", .formula (some "b / a"), [.text "a", .text "b"], [], none, .null, .null⟩

/-- The formula `b / a` with `a = 1` and the given value for `b`. -/
def ratioOver (b : Rat) : Registry Exact where
  nodes := .ofList
    [("a", ⟨"a", "a", .factor (.value 1), [], ["p"], some (.value 1), .null, .null⟩),
     ("b", ⟨"b", "b", .factor (.value b), [], ["p"], some (.value b), .null, .null⟩),
     ("p", ratio)]
  roots := []

theorem solveChild_ratioOver_six :
    let solved := (ratioOver 6).solveChild "p" "a" (.value 2) .standard (fun _ => (0, ())) ()
    solved.outcome = .ok (.value 3) ∧ solved.method = some .algebraic ∧
    ∃ p c s expr, (ratioOver 6).node? "p" = some p ∧ (ratioOver 6).node? "a" = some c ∧
      p.expression? = some s ∧ parseExpression s = .ok expr ∧
      (expr.evaluate (((ratioOver 6).siblingContext p "a").set c.name (.value 3)) =
          .ok (.value 2) ↔ ¬expr.ZeroOver ((ratioOver 6).siblingContext p "a") c.name) := by
  intro solved
  have hv : solved.outcome = .ok (.value 3) := by decide +kernel
  have hm : solved.method = some .algebraic := by decide +kernel
  obtain ⟨p, c, s, expr, hp, hc, hs, hexpr, hiff, -⟩ := solveChild_reaches_target_iff hv hm
  exact ⟨hv, hm, p, c, s, expr, hp, hc, hs, hexpr, hiff⟩

/-- Zero divided by a child is never five, and zero is the answer all the same. -/
theorem solveChild_ratioOver_zero :
    let solved := (ratioOver 0).solveChild "p" "a" (.value 5) .standard (fun _ => (0, ())) ()
    let expr : Expr Exact := .binary .div (.var "b") (.var "a")
    solved.outcome = .ok (.value 0) ∧ solved.method = some .algebraic ∧
    (ratioOver 0).node? "p" = some ratio ∧ parseExpression "b / a" = .ok expr ∧
    expr.evaluate (((ratioOver 0).siblingContext ratio "a").set "a" (.value 0)) =
      .error .divisionByZero := by
  refine ⟨by decide +kernel, by decide +kernel, rfl, by decide +kernel, by decide +kernel⟩

end FormulaGraph.Registry
