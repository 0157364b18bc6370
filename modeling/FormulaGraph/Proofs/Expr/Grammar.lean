import FormulaGraph.Expr.Parser
/-!
# The grammar of expressions

```
sum     := product (('+' | '-') product)*
product := unary (('*' | '/') unary)*
unary   := ('+' | '-') unary | primary
primary := NUMBER | NAME | '(' sum ')'
```

A derivation is a value of the type `Derivation`, with one constructor for each alternative; sums
and products are the two levels of one rule. What it derives (`yield`), the tree it stands for
(`tree`, associated to the left) and how deep each token lies in it (`enclosures`) are functions of
the derivation.

* `Derivation.length_enclosures`: the depths are those of the tokens, one for each.
* `Derivation.unambiguous`: what is derived determines the derivation.
-/
namespace FormulaGraph.Grammar

/-- The two rules that are chains of operators. -/
inductive Level where
  | product | sum
  deriving DecidableEq

def Level.operators : Level → List Operator
  | .product => [.mul, .div]
  | .sum => [.add, .sub]

/-- The left sides of the rules. -/
inductive Symbol where
  | chain (level : Level)
  | unary
  | primary

/-- What stands between the operators of a chain. -/
def Level.operand : Level → Symbol
  | .product => .unary
  | .sum => .chain .product

def signOperator : Sign → Operator
  | .plus => .add
  | .minus => .sub

mutual

/-- The derivations from a symbol. -/
inductive Derivation : Symbol → Type where
  | chain {level : Level} (first : Derivation level.operand) (more : Tail level) :
      Derivation (.chain level)
  | signed (sign : Sign) (operand : Derivation .unary) : Derivation .unary
  | primary (inner : Derivation .primary) : Derivation .unary
  | number (run : Text) : Derivation .primary
  | name (run : Text) : Derivation .primary
  | group (inner : Derivation (.chain .sum)) : Derivation .primary

/-- The repetitions of operator and operand in a chain. -/
inductive Tail : Level → Type where
  | nil {level : Level} : Tail level
  | cons {level : Level} (op : Operator) (mem : op ∈ level.operators)
      (operand : Derivation level.operand) (more : Tail level) : Tail level

end

mutual

/-- The tokens that are derived. -/
def Derivation.yield {s : Symbol} : Derivation s → List Lexeme
  | .chain first more => first.yield ++ more.yield
  | .signed sign operand => .operator (signOperator sign) :: operand.yield
  | .primary inner => inner.yield
  | .number run => [.number run]
  | .name run => [.name run]
  | .group inner => .openParen :: (inner.yield ++ [.closeParen])

def Tail.yield {level : Level} : Tail level → List Lexeme
  | .nil => []
  | .cons op _ operand more => .operator op :: (operand.yield ++ more.yield)

end

mutual

/-- For each token that is derived the number of parentheses and signs that it lies inside of. -/
def Derivation.enclosures {s : Symbol} : Derivation s → List Nat
  | .chain first more => first.enclosures ++ more.enclosures
  | .signed _ operand => 0 :: operand.enclosures.map (· + 1)
  | .primary inner => inner.enclosures
  | .number _ => [0]
  | .name _ => [0]
  | .group inner => 0 :: (inner.enclosures.map (· + 1) ++ [0])

def Tail.enclosures {level : Level} : Tail level → List Nat
  | .nil => []
  | .cons _ _ operand more => 0 :: (operand.enclosures ++ more.enclosures)

end

section

variable {α : Type} [Scalar α]

/-- The value that a literal is written for. -/
def literal (run : Text) : α :=
  let whole := Text.charsWhile Char.isDigit run.points
  let fraction := Text.charsWhile Char.isDigit (run.points.drop (whole.length + 1))
  Scalar.ofDecimal (Numeral.ofDigits false whole fraction 0)

mutual

/-- The tree that is derived. -/
def Derivation.tree {s : Symbol} : Derivation s → Expr α
  | .chain first more => more.tree first.tree
  | .signed sign operand => .unary sign operand.tree
  | .primary inner => inner.tree
  | .number run => .num (literal run)
  | .name run => .var run
  | .group inner => inner.tree

/-- The tree of a chain that has `left` as the tree of what stands before. -/
def Tail.tree {level : Level} : Tail level → Expr α → Expr α
  | .nil, left => left
  | .cons op _ operand more, left => more.tree (.binary op left operand.tree)

end

end

/-! ## Tokens and enclosures -/

mutual

/-- There is one number for each token. -/
theorem Derivation.length_enclosures {s : Symbol} :
    (d : Derivation s) → d.enclosures.length = d.yield.length
  | .chain first more => by
    rw [Derivation.enclosures, Derivation.yield, List.length_append, List.length_append,
      first.length_enclosures, more.length_enclosures]
  | .signed sign operand => by
    rw [Derivation.enclosures, Derivation.yield, List.length_cons, List.length_cons,
      List.length_map, operand.length_enclosures]
  | .primary inner => inner.length_enclosures
  | .number _ => rfl
  | .name _ => rfl
  | .group inner => by
    rw [Derivation.enclosures, Derivation.yield, List.length_cons, List.length_cons,
      List.length_append, List.length_append, List.length_map, inner.length_enclosures]
    rfl

theorem Tail.length_enclosures {level : Level} :
    (t : Tail level) → t.enclosures.length = t.yield.length
  | .nil => rfl
  | .cons _ _ operand more => by
    rw [Tail.enclosures, Tail.yield, List.length_cons, List.length_cons, List.length_append,
      List.length_append, operand.length_enclosures, more.length_enclosures]

end

/-- The first token of a derivation lies inside of nothing. -/
theorem Derivation.zero_mem_enclosures {s : Symbol} : (d : Derivation s) → 0 ∈ d.enclosures
  | .chain first more => List.mem_append_left _ first.zero_mem_enclosures
  | .signed _ _ => List.mem_cons_self
  | .primary inner => inner.zero_mem_enclosures
  | .number _ => List.mem_cons_self
  | .name _ => List.mem_cons_self
  | .group _ => List.mem_cons_self

/-- A primary does not begin with an operator. -/
theorem Derivation.yield_primary_ne (d : Derivation .primary) (op : Operator)
    (rest rest' : List Lexeme) : d.yield ++ rest ≠ .operator op :: rest' := by
  cases d with
  | number run => simp [yield]
  | name run => simp [yield]
  | group inner => simp [yield]

/-! ## Where a phrase ends -/

/-- The operators that a phrase goes on with. -/
def Symbol.continuing : Symbol → List Operator
  | .chain .product => [.mul, .div]
  | .chain .sum => [.add, .sub, .mul, .div]
  | .unary => []
  | .primary => []

/-- What comes next cannot belong to a phrase of the symbol. -/
def Stops (s : Symbol) (rest : List Lexeme) : Prop :=
  ∀ op ∈ s.continuing, rest.head? ≠ some (.operator op)

theorem stops_nil (s : Symbol) : Stops s [] := fun _ _ => nofun

/-- A closing parenthesis is no operator. -/
theorem stops_closeParen (rest : List Lexeme) :
    Stops (.chain .sum) ([.closeParen] ++ rest) := fun _ _ => nofun

theorem operators_subset (level : Level) : level.operators ⊆ (Symbol.chain level).continuing := by
  cases level <;> decide

theorem operand_continuing_subset (level : Level) :
    level.operand.continuing ⊆ (Symbol.chain level).continuing := by
  cases level <;> decide

theorem not_mem_operand_continuing {level : Level} {op : Operator} (h : op ∈ level.operators) :
    op ∉ level.operand.continuing := by
  cases level with
  | product => exact List.not_mem_nil
  | sum => cases op <;> simp_all [Level.operators, Level.operand, Symbol.continuing]

/-- Behind an operand stands an operator of the chain, or what stands behind the chain. -/
theorem Stops.operand {level : Level} {rest : List Lexeme} (h : Stops (.chain level) rest)
    (t : Tail level) : Stops level.operand (t.yield ++ rest) := by
  intro op hop
  cases t with
  | nil => exact h op (operand_continuing_subset level hop)
  | cons op' mem operand more =>
    rintro heq
    obtain rfl : op' = op := by simpa [Tail.yield] using heq
    exact not_mem_operand_continuing mem hop

/-! ## Unambiguity -/

mutual

/-- Two derivations that begin one text, and of which none can go on behind its end, are the same.
-/
theorem Derivation.eq_of_append_eq {s : Symbol} : (d d' : Derivation s) →
    {rest rest' : List Lexeme} → Stops s rest → Stops s rest' →
    d.yield ++ rest = d'.yield ++ rest' → d = d' ∧ rest = rest'
  | .chain first more, .chain first' more', _, _, h, h', heq => by
    rw [Derivation.yield, Derivation.yield, List.append_assoc, List.append_assoc] at heq
    obtain ⟨rfl, htail⟩ := first.eq_of_append_eq first' (h.operand more) (h'.operand more') heq
    obtain ⟨rfl, rfl⟩ := more.eq_of_append_eq more' h h' htail
    exact ⟨rfl, rfl⟩
  | .signed sign operand, .signed sign' operand', _, _, h, h', heq => by
    obtain ⟨hsign, htail⟩ := List.cons.inj heq
    obtain rfl : sign = sign' := by
      cases sign <;> cases sign' <;> simp_all [signOperator]
    obtain ⟨rfl, rfl⟩ := operand.eq_of_append_eq operand' h h' htail
    exact ⟨rfl, rfl⟩
  | .signed _ _, .primary inner, _, _, _, _, heq => absurd heq.symm (inner.yield_primary_ne _ _ _)
  | .primary inner, .signed _ _, _, _, _, _, heq => absurd heq (inner.yield_primary_ne _ _ _)
  | .primary inner, .primary inner', _, _, _, _, heq => by
    obtain ⟨rfl, rfl⟩ := inner.eq_of_append_eq inner' (fun _ => nofun) (fun _ => nofun) heq
    exact ⟨rfl, rfl⟩
  | .group inner, .group inner', _, _, _, _, heq => by
    rw [Derivation.yield, Derivation.yield, List.cons_append, List.cons_append,
      List.append_assoc, List.append_assoc] at heq
    obtain ⟨rfl, htail⟩ := inner.eq_of_append_eq inner' (stops_closeParen _) (stops_closeParen _)
      (List.cons.inj heq).2
    exact ⟨rfl, (List.cons.inj htail).2⟩
  | .number run, .number run', _, _, _, _, heq => by simpa [Derivation.yield] using heq
  | .name run, .name run', _, _, _, _, heq => by simpa [Derivation.yield] using heq
  | .number _, .name _, _, _, _, _, heq => by simp [Derivation.yield] at heq
  | .number _, .group _, _, _, _, _, heq => by simp [Derivation.yield] at heq
  | .name _, .number _, _, _, _, _, heq => by simp [Derivation.yield] at heq
  | .name _, .group _, _, _, _, _, heq => by simp [Derivation.yield] at heq
  | .group _, .number _, _, _, _, _, heq => by simp [Derivation.yield] at heq
  | .group _, .name _, _, _, _, _, heq => by simp [Derivation.yield] at heq

theorem Tail.eq_of_append_eq {level : Level} : (t t' : Tail level) → {rest rest' : List Lexeme} →
    Stops (.chain level) rest → Stops (.chain level) rest' → t.yield ++ rest = t'.yield ++ rest' →
    t = t' ∧ rest = rest'
  | .nil, .nil, _, _, _, _, heq => ⟨rfl, heq⟩
  | .nil, .cons op mem _ _, _, _, h, _, heq =>
    absurd (congrArg List.head? heq) (h op (operators_subset level mem))
  | .cons op mem _ _, .nil, _, _, _, h', heq =>
    absurd (congrArg List.head? heq.symm) (h' op (operators_subset level mem))
  | .cons op _ operand more, .cons op' _ operand' more', _, _, h, h', heq => by
    rw [Tail.yield, Tail.yield, List.cons_append, List.cons_append, List.append_assoc,
      List.append_assoc] at heq
    obtain ⟨hop, hrest⟩ := List.cons.inj heq
    obtain rfl := Lexeme.operator.inj hop
    obtain ⟨rfl, htail⟩ := operand.eq_of_append_eq operand' (h.operand more) (h'.operand more')
      hrest
    obtain ⟨rfl, rfl⟩ := more.eq_of_append_eq more' h h' htail
    exact ⟨rfl, rfl⟩

end

/-- What is derived determines the derivation. -/
theorem Derivation.unambiguous {s : Symbol} {d d' : Derivation s} (h : d.yield = d'.yield) :
    d = d' := by
  have hwhole : d.yield ++ [] = d'.yield ++ [] := by rw [h]
  exact (d.eq_of_append_eq d' (stops_nil s) (stops_nil s) hwhole).1

end FormulaGraph.Grammar
