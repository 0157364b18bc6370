import FormulaGraph.Proofs.Expr.Depth
import FormulaGraph.Proofs.Expr.Segments
import FormulaGraph.Proofs.Number.Positional
/-!
# Reading what was written

The text of a tree has parentheses around each operation and none anywhere else, so an operand is
always one unary phrase of the grammar (`Expr.operand`): a sign before an operand, a leaf, or a
group. A group and a sign enclose their tokens once, and they make the tree one higher as well. So a
tree that is no higher than `maxDepth` is within both limits of the reader.

The text is that of the tokens of this derivation (`lexes_render`): behind an operand comes a blank,
a closing parenthesis or nothing, none of which goes on with a name or a literal, and a sign needs
nothing behind it.

* `parseExpression_render`: a tree is read back from its text, whatever literals are written by.
* `parseExpression_text`: so is one whose literals are plain doubles, as they are written.
-/
namespace FormulaGraph

/-! ## The derivation of a written tree -/

namespace Grammar

/-- Two operands with an operator between them. -/
def Derivation.operation (op : Operator) (left right : Derivation .unary) :
    Derivation (.chain .sum) :=
  match op with
  | .add => .chain (.chain left .nil) (.cons .add (by decide) (.chain right .nil) .nil)
  | .sub => .chain (.chain left .nil) (.cons .sub (by decide) (.chain right .nil) .nil)
  | .mul => .chain (.chain left (.cons .mul (by decide) right .nil)) .nil
  | .div => .chain (.chain left (.cons .div (by decide) right .nil)) .nil

variable (op : Operator) (left right : Derivation .unary)

theorem Derivation.yield_operation :
    (operation op left right).yield = left.yield ++ .operator op :: right.yield := by
  cases op <;> simp [operation, yield, Tail.yield] <;> rfl

theorem Derivation.enclosures_operation :
    (operation op left right).enclosures = left.enclosures ++ 0 :: right.enclosures := by
  cases op <;> simp [operation, enclosures, Tail.enclosures] <;> rfl

theorem Derivation.tree_operation {α : Type} [Scalar α] :
    ((operation op left right).tree : Expr α) = .binary op left.tree right.tree := by
  cases op <;> rfl

end Grammar

open Grammar

variable {α : Type}

namespace Expr

/-- The numbers in an expression, from left to right. -/
def literals : Expr α → List α
  | .num v => [v]
  | .var _ => []
  | .unary _ e => e.literals
  | .binary _ l r => l.literals ++ r.literals

/-- The derivation of the text of an expression. -/
def operand (literal : α → Text) : Expr α → Derivation .unary
  | .num v => .primary (.number (literal v))
  | .var n => .primary (.name n)
  | .unary s e => .signed s (e.operand literal)
  | .binary op l r => .primary (.group (.operation op (l.operand literal) (r.operand literal)))

theorem operationsWithin_of_height_le {bound : Nat} {e : Expr α} (h : e.height ≤ bound) :
    e.OperationsWithin bound := by
  induction e with
  | num v => exact operationsWithin_num v
  | var n => exact operationsWithin_var n
  | unary s e ih => exact operationsWithin_unary.2 (ih (Nat.le_of_succ_le h))
  | binary op l r ihl ihr =>
    have hmax := Nat.le_of_succ_le h
    exact operationsWithin_binary.2 ⟨h, ihl (Nat.le_trans (Nat.le_max_left _ _) hmax),
      ihr (Nat.le_trans (Nat.le_max_right _ _) hmax)⟩

/-- Each sign and each pair of parentheses makes the tree one higher. -/
theorem enclosures_operand_lt (literal : α → Text) (e : Expr α) :
    ∀ k ∈ (e.operand literal).enclosures, k < e.height := by
  induction e with
  | num v => exact List.forall_mem_singleton.2 Nat.one_pos
  | var n => exact List.forall_mem_singleton.2 Nat.one_pos
  | unary s e ih =>
    refine List.forall_mem_cons.2 ⟨Nat.succ_pos _, List.forall_mem_map.2 fun k hk => ?_⟩
    exact Nat.succ_lt_succ (ih k hk)
  | binary op l r ihl ihr =>
    have hinner : ∀ k ∈ (Derivation.operation op (l.operand literal)
        (r.operand literal)).enclosures, k < max l.height r.height := by
      rw [Derivation.enclosures_operation, List.forall_mem_append, List.forall_mem_cons]
      refine ⟨fun k hk => lt_max_of_lt_left (ihl k hk), lt_max_of_lt_left l.height_pos,
        fun k hk => lt_max_of_lt_right (ihr k hk)⟩
    rw [operand, Derivation.enclosures, Derivation.enclosures, List.forall_mem_cons,
      List.forall_mem_append, List.forall_mem_map, List.forall_mem_singleton]
    exact ⟨Nat.succ_pos _, fun k hk => Nat.succ_lt_succ (hinner k hk), Nat.succ_pos _⟩

variable [Scalar α]

theorem tree_operand {literal : α → Text} {e : Expr α}
    (h : ∀ v ∈ e.literals, Grammar.literal (literal v) = v) : (e.operand literal).tree = e := by
  induction e with
  | num v => exact congrArg Expr.num (h v List.mem_cons_self)
  | var n => rfl
  | unary s e ih => exact congrArg (Expr.unary s) (ih h)
  | binary op l r ihl ihr =>
    obtain ⟨hl, hr⟩ := List.forall_mem_append.1 h
    rw [operand, Derivation.tree, Derivation.tree, Derivation.tree_operation, ihl hl, ihr hr]

end Expr

/-! ## The text of a tree -/

/-- No lexeme goes on with what comes next. -/
def Closed (rest : List CodePoint) : Prop := ∀ l : Lexeme, l.EndsBefore rest

theorem closed_nil : Closed [] := Lexeme.endsBefore_nil

theorem closed_blank (rest : List CodePoint) : Closed (.char ' ' :: rest) :=
  fun l => l.endsBefore_blank rest

theorem closed_closeParen (rest : List CodePoint) : Closed (.char ')' :: rest) := by
  intro l
  cases l with
  | number run =>
    rintro p ⟨⟩
    decide
  | name run =>
    rintro p ⟨⟩
    decide
  | _ => trivial

theorem text_signOperator (s : Sign) :
    (Lexeme.operator (signOperator s)).text = .singleton s.symbol := by
  cases s <;> rfl

/-- The text of a tree has the tokens of its derivation. -/
theorem lexes_render {literal : α → Text} {e : Expr α}
    (hnames : ∀ n ∈ e.names, (Lexeme.name n).Spelled)
    (hliterals : ∀ v ∈ e.literals, (Lexeme.number (literal v)).Spelled) {ls : List Lexeme}
    {rest : List CodePoint} (hrest : Closed rest) (h : Lexes ls rest) :
    Lexes ((e.operand literal).yield ++ ls) ((e.render literal).points ++ rest) := by
  induction e generalizing ls rest with
  | num v => exact h.cons (hliterals v List.mem_cons_self) (hrest _)
  | var n => exact h.cons (hnames n List.mem_cons_self) (hrest _)
  | unary s e ih =>
    have hoperand := ih hnames hliterals hrest h
    have hsign := hoperand.cons (l := .operator (signOperator s)) trivial trivial
    rw [text_signOperator] at hsign
    exact hsign
  | binary op l r ihl ihr =>
    obtain ⟨hnamesl, hnamesr⟩ := List.forall_mem_append.1 hnames
    obtain ⟨hliteralsl, hliteralsr⟩ := List.forall_mem_append.1 hliterals
    have hclose := h.cons (l := .closeParen) trivial trivial
    have hright := ihr hnamesr hliteralsr (closed_closeParen rest) hclose
    have hoperator := hright.blank.cons (l := .operator op) trivial trivial
    have hleft := ihl hnamesl hliteralsl (closed_blank _) hoperator.blank
    have hopen := hleft.cons (l := .openParen) trivial trivial
    have hyield : ((Expr.binary op l r).operand literal).yield ++ ls = .openParen ::
        ((l.operand literal).yield ++ .operator op ::
          ((r.operand literal).yield ++ .closeParen :: ls)) := by
      rw [Expr.operand, Derivation.yield, Derivation.yield, Derivation.yield_operation]
      simp
    have hpoints : ((Expr.binary op l r).render literal).points ++ rest =
        Lexeme.openParen.text.points ++ ((l.render literal).points ++ .char ' ' ::
          ((Lexeme.operator op).text.points ++ .char ' ' :: ((r.render literal).points ++
            (Lexeme.closeParen.text.points ++ rest)))) := by
      simp only [Expr.render, Text.points_append, List.append_assoc]
      rfl
    rw [hyield, hpoints]
    exact hopen

variable [Scalar α]

/-- **Reading what was written.** A tree that is no higher than the limit is read back from its
text, if its names are names and the text of each of its literals is a literal that is read back. -/
theorem parseExpression_render {literal : α → Text} {e : Expr α} (hheight : e.height ≤ maxDepth)
    (hnames : ∀ n ∈ e.names, (Lexeme.name n).Spelled)
    (hliterals : ∀ v ∈ e.literals,
      (Lexeme.number (literal v)).Spelled ∧ Grammar.literal (literal v) = v) :
    parseExpression (e.render literal) = .ok e := by
  obtain ⟨ts, hts, hlexemes⟩ :=
    lexes_render hnames (fun v hv => (hliterals v hv).1) closed_nil lexes_nil 0
  rw [List.append_nil] at hts hlexemes
  have htree : ((e.operand literal).tree : Expr α) = e :=
    Expr.tree_operand fun v hv => (hliterals v hv).2
  rw [parseExpression, tokenize_eq_ok_iff.2 hts]
  refine Parser.whole_eq_ok_iff.2 ⟨(e.operand literal).alone, ?_, htree, ?_, ?_⟩
  · rw [Derivation.yield_alone, hlexemes]
  · intro k hk
    rw [Derivation.enclosures_alone] at hk
    exact Nat.le_trans (Nat.le_of_lt (e.enclosures_operand_lt literal k hk)) hheight
  · have hwithin := Expr.operationsWithin_of_height_le hheight
    rwa [← htree] at hwithin

/-- **Reading a printed tree.** A tree that is no higher than the limit, with names for its names
and plain doubles for its literals, is read back from its text. -/
theorem parseExpression_text {e : Expr Float} (hheight : e.height ≤ maxDepth)
    (hnames : ∀ n ∈ e.names, (Lexeme.name n).Spelled) (hliterals : ∀ v ∈ e.literals, Plain v) :
    parseExpression e.text = .ok e :=
  parseExpression_render hheight hnames fun v hv => literal_floatText (hliterals v hv)

/-- A tree with signs beside operators and beside signs, and with the least plain double. -/
def signedTree : Expr Float :=
  .binary .div (.unary .minus (.binary .mul (.num 0.1) (.binary .sub (.var "x_1")
    (.unary .minus (.unary .plus (.num 250)))))) (.num 1e-4)

theorem parseExpression_text_signed :
    signedTree.text = "(-(0.1 * (x_1 - -+250.0)) / 0.0001)" ∧
      parseExpression signedTree.text = .ok signedTree := by
  refine ⟨by decide +kernel, parseExpression_text (by decide) ?_ ?_⟩
  · exact List.forall_mem_singleton.2 ⟨.char 'x', _, rfl, rfl, by decide +kernel⟩
  · have hplain : ∀ v ∈ ([0.1, 250, 1e-4] : List Float), 1e-4 ≤ v ∧ v < 1e16 := by decide +kernel
    exact fun v hv => .inr (hplain v hv)

end FormulaGraph
