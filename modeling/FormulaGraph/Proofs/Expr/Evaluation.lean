import FormulaGraph.Expr.Tree
import FormulaGraph.Number.Exact
/-!
# What the value of an expression depends on

It depends on the values of the names that occur in it (`evaluate_congr`).

* `exists_finite_of_evaluate_eq_ok`: an expression with a value has finite values for all its names
  in the context. So it fails in a context that lacks one of them (`exists_error_of_mem_names`), and
  a name that the context lacks can be given any value (`evaluate_set`).
* `special?_of_evaluate_eq_ok`: a value is a finite number, in exact arithmetic a rational
  (`exists_value_of_evaluate_eq_ok`).
-/
namespace FormulaGraph

namespace Expr

variable {α : Type} [Scalar α] {ctx : Context α}

theorem finite_eq_ok {x y : α} : finite x = .ok y ↔ x = y ∧ Scalar.special? x = none := by
  unfold finite
  cases Scalar.special? x <;> simp

theorem evaluate_unary_eq_ok {s : Sign} {e : Expr α} {v : α} :
    (unary s e).evaluate ctx = .ok v ↔
      ∃ x, e.evaluate ctx = .ok x ∧ applySign s x = v ∧ Scalar.special? v = none := by
  rw [evaluate]
  cases e.evaluate ctx with
  | error f => simp [bind, Except.bind]
  | ok x =>
    simp only [bind, Except.bind, finite_eq_ok, Except.ok.injEq, exists_eq_left']
    constructor
    · rintro ⟨rfl, h⟩
      exact ⟨rfl, h⟩
    · rintro ⟨rfl, h⟩
      exact ⟨rfl, h⟩

theorem evaluate_binary {op : Operator} {l r : Expr α} {x y : α} (hl : l.evaluate ctx = .ok x)
    (hr : r.evaluate ctx = .ok y) :
    (binary op l r).evaluate ctx = (applyOperator op x y).bind finite := by
  rw [evaluate, hl, hr]
  rfl

theorem evaluate_binary_eq_ok {op : Operator} {l r : Expr α} {v : α} :
    (binary op l r).evaluate ctx = .ok v ↔
      ∃ x y, l.evaluate ctx = .ok x ∧ r.evaluate ctx = .ok y ∧ applyOperator op x y = .ok v ∧
        Scalar.special? v = none := by
  rw [evaluate]
  cases l.evaluate ctx with
  | error f => simp [bind, Except.bind]
  | ok x =>
    cases r.evaluate ctx with
    | error f => simp [bind, Except.bind]
    | ok y =>
      cases h : applyOperator op x y with
      | error f => simp [bind, Except.bind, h]
      | ok z =>
        simp only [bind, Except.bind, h, finite_eq_ok]
        constructor
        · rintro ⟨rfl, hz⟩
          exact ⟨x, y, rfl, rfl, h, hz⟩
        · rintro ⟨x', y', hx, hy, hv, hz⟩
          obtain rfl := Except.ok.inj hx
          obtain rfl := Except.ok.inj hy
          obtain rfl := Except.ok.inj (h.symm.trans hv)
          exact ⟨rfl, hz⟩

/-- All names of an expression with a value have finite values. -/
theorem exists_finite_of_evaluate_eq_ok {e : Expr α} {v : α} (h : e.evaluate ctx = .ok v) :
    ∀ n ∈ e.names, ∃ x, ctx n = some x ∧ Scalar.special? x = none := by
  induction e generalizing v with
  | num v => simp [names]
  | var n =>
    simp only [names, List.mem_singleton, forall_eq]
    rw [evaluate] at h
    split at h
    · cases h
    · rename_i x hn
      exact ⟨x, hn, (finite_eq_ok.1 h).2⟩
  | unary s e ih =>
    obtain ⟨x, hx, -⟩ := evaluate_unary_eq_ok.1 h
    exact ih hx
  | binary op l r ihl ihr =>
    obtain ⟨x, y, hx, hy, -⟩ := evaluate_binary_eq_ok.1 h
    intro n hn
    rcases List.mem_append.1 hn with hn | hn
    · exact ihl hx n hn
    · exact ihr hy n hn

theorem isSome_of_evaluate_eq_ok {e : Expr α} {v : α} (h : e.evaluate ctx = .ok v) :
    ∀ n ∈ e.names, (ctx n).isSome = true := by
  intro n hn
  obtain ⟨x, hx, -⟩ := exists_finite_of_evaluate_eq_ok h n hn
  rw [hx, Option.isSome_some]

/-- A name without a value does not occur in an expression that has one. -/
theorem not_mem_names_of_evaluate_eq_ok {e : Expr α} {v : α} (h : e.evaluate ctx = .ok v)
    {name : Text} (hname : ctx name = none) : name ∉ e.names := by
  intro hmem
  have hsome := isSome_of_evaluate_eq_ok h name hmem
  rw [hname] at hsome
  cases hsome

/-- Without a value for one of its names an expression has none, whatever else fails in it. -/
theorem exists_error_of_mem_names {e : Expr α} {name : Text} (hmem : name ∈ e.names)
    (hname : ctx name = none) : ∃ f, e.evaluate ctx = .error f := by
  cases h : e.evaluate ctx with
  | error f => exact ⟨f, rfl⟩
  | ok v => exact absurd hmem (not_mem_names_of_evaluate_eq_ok h hname)

theorem evaluate_set {e : Expr α} {v : α} (h : e.evaluate ctx = .ok v) {name : Text}
    (hname : ctx name = none) (x : α) : e.evaluate (ctx.set name x) = .ok v := by
  rw [← h]
  refine evaluate_congr fun n hn => ?_
  have hne : n ≠ name := by
    rintro rfl
    exact not_mem_names_of_evaluate_eq_ok h hname hn
  simp [Context.set, hne]

theorem special?_of_finite_eq_ok {x y : α} (h : finite x = .ok y) : Scalar.special? y = none := by
  obtain ⟨rfl, hx⟩ := finite_eq_ok.1 h
  exact hx

/-- What is not finite is no value. -/
theorem special?_of_evaluate_eq_ok {e : Expr α} {v : α} (h : e.evaluate ctx = .ok v) :
    Scalar.special? v = none := by
  cases e with
  | num w => exact special?_of_finite_eq_ok h
  | var n =>
    rw [evaluate] at h
    split at h
    · cases h
    · exact special?_of_finite_eq_ok h
  | unary s e =>
    obtain ⟨x, -, -, hv⟩ := evaluate_unary_eq_ok.1 h
    exact hv
  | binary op l r =>
    obtain ⟨x, y, -, -, -, hv⟩ := evaluate_binary_eq_ok.1 h
    exact hv

/-- In exact arithmetic a value is a rational. -/
theorem exists_value_of_evaluate_eq_ok {ctx : Context Exact} {e : Expr Exact} {v : Exact}
    (h : e.evaluate ctx = .ok v) : ∃ q : Rat, v = .value q := by
  cases v with
  | value q => exact ⟨q, rfl⟩
  | undefined => cases special?_of_evaluate_eq_ok h

end Expr

end FormulaGraph
