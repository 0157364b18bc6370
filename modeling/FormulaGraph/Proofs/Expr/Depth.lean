import FormulaGraph.Number.Exact
import FormulaGraph.Proofs.Expr.Spelling
/-!
# How high trees get

The reader bounds two things by `maxDepth`: the signs and parentheses around each token, and the
height of each operation. A sign makes the tree of its operand one higher, and this height is
bounded only where an operation stands over it. So the signs that a whole text begins with are counted on
their own: the tree behind them (`unsigned`) is as high as an operation may be, and there may be as
many signs as may stand around a token, one less before an operation, which needs parentheses there.

* `Derivation.exists_enclosures_ge`: the first signs of a tree and the parentheses behind them
  enclose a token.
* `height_of_parseExpression`: the heights that the two bounds allow are those of the trees that are
  read.
* `parseExpression_too_high`: two trees higher than `maxDepth`.
-/
namespace FormulaGraph

variable {α : Type}

namespace Expr

/-- The number of signs that an expression begins with. -/
def signs : Expr α → Nat
  | .unary _ e => e.signs + 1
  | .num _ | .var _ | .binary _ _ _ => 0

/-- The expression behind its first signs. -/
def unsigned : Expr α → Expr α
  | .unary _ e => e.unsigned
  | .num v => .num v
  | .var n => .var n
  | .binary op l r => .binary op l r

theorem height_eq (e : Expr α) : e.height = e.signs + e.unsigned.height := by
  induction e with
  | unary s e ih =>
    rw [height, signs, unsigned, ih]
    omega
  | num v => rfl
  | var n => rfl
  | binary op l r => exact (Nat.zero_add _).symm

theorem height_pos (e : Expr α) : 1 ≤ e.height := by
  cases e <;> simp [height]

theorem OperationsWithin.height_unsigned_le {bound : Nat} {e : Expr α}
    (h : e.OperationsWithin bound) (hbound : 1 ≤ bound) : e.unsigned.height ≤ bound := by
  induction e with
  | unary s e ih => exact ih (operationsWithin_unary.1 h)
  | num v => exact hbound
  | var n => exact hbound
  | binary op l r => exact (operationsWithin_binary.1 h).1

end Expr

variable [Scalar α]

namespace Grammar

/-! ## Signs of derivations -/

/-- The tree of a chain with an operator in it has no sign in front. -/
theorem Tail.signs_tree {level : Level} : (t : Tail level) → {left : Expr α} → left.signs = 0 →
    (t.tree left).signs = 0
  | .nil, _, h => h
  | .cons _ _ _ more, _, _ => more.signs_tree rfl

/-- Some token lies inside of all signs that a tree begins with. If they stand before an operation,
it lies inside of parentheses as well, unless the operation is a chain without any sign. -/
theorem Derivation.exists_enclosures_ge {s : Symbol} : (d : Derivation s) →
    ∃ k ∈ d.enclosures, (d.tree : Expr α).signs ≤ k ∧
      (1 < (d.tree : Expr α).unsigned.height →
        (d.tree : Expr α).signs < k ∨ (d.tree : Expr α).signs = 0 ∧ ∃ level, s = .chain level)
  | .chain first .nil => by
    obtain ⟨k, hk, hle, hlt⟩ := first.exists_enclosures_ge
    refine ⟨k, List.mem_append_left _ hk, hle, fun hheight => ?_⟩
    exact (hlt hheight).imp_right fun hchain => ⟨hchain.1, _, rfl⟩
  | .chain first (.cons op mem operand more) => by
    have hsigns : ((Derivation.chain first (.cons op mem operand more)).tree : Expr α).signs = 0 :=
      more.signs_tree rfl
    exact ⟨0, Derivation.zero_mem_enclosures _, Nat.le_of_eq hsigns, fun _ => .inr ⟨hsigns, _, rfl⟩⟩
  | .signed sign operand => by
    obtain ⟨k, hk, hle, hlt⟩ := operand.exists_enclosures_ge
    refine ⟨k + 1, List.mem_cons_of_mem _ (List.mem_map_of_mem hk), Nat.succ_le_succ hle,
      fun hheight => ?_⟩
    rcases hlt hheight with hlt | ⟨-, level, hchain⟩
    · exact .inl (Nat.succ_lt_succ hlt)
    · cases hchain
  | .primary inner => by
    obtain ⟨k, hk, hle, hlt⟩ := inner.exists_enclosures_ge
    refine ⟨k, hk, hle, fun hheight => ?_⟩
    rcases hlt hheight with hlt | ⟨-, level, hchain⟩
    · exact .inl hlt
    · cases hchain
  | .number _ => ⟨0, List.mem_cons_self, Nat.le_refl _, fun h => absurd h (Nat.lt_irrefl _)⟩
  | .name _ => ⟨0, List.mem_cons_self, Nat.le_refl _, fun h => absurd h (Nat.lt_irrefl _)⟩
  | .group inner => by
    obtain ⟨k, hk, hle, -⟩ := inner.exists_enclosures_ge
    refine ⟨k + 1, ?_, Nat.le_succ_of_le hle, fun _ => .inl (Nat.lt_succ_of_le hle)⟩
    exact List.mem_cons_of_mem _ (List.mem_append_left _ (List.mem_map_of_mem hk))

/-! ## A text for every height -/

/-- The name `a` as an operand. -/
def Derivation.a : Derivation .unary := .primary (.name "a")

/-- A sum of one operand. -/
def Derivation.alone (d : Derivation .unary) : Derivation (.chain .sum) :=
  .chain (.chain d .nil) .nil

theorem Derivation.yield_alone (d : Derivation .unary) : d.alone.yield = d.yield := by
  have happend : d.alone.yield = (d.yield ++ []) ++ [] := rfl
  rw [happend, List.append_nil, List.append_nil]

theorem Derivation.enclosures_alone (d : Derivation .unary) :
    d.alone.enclosures = d.enclosures := by
  have happend : d.alone.enclosures = (d.enclosures ++ []) ++ [] := rfl
  rw [happend, List.append_nil, List.append_nil]

/-- `+ a`, the given number of times. -/
def Tail.more : Nat → Tail .sum
  | 0 => .nil
  | n + 1 => .cons .add List.mem_cons_self (.chain .a .nil) (Tail.more n)

/-- The sum in parentheses of `a` and as many more. -/
def Derivation.bracketed (n : Nat) : Derivation .unary :=
  .primary (.group (.chain (.chain .a .nil) (.more n)))

/-- An operand behind the given number of minus signs. -/
def Derivation.negated (d : Derivation .unary) : Nat → Derivation .unary
  | 0 => d
  | k + 1 => .signed .minus (d.negated k)

theorem Tail.tree_more (n : Nat) {left : Expr α} (hleft : left.OperationsWithin maxDepth)
    (hn : left.height + n ≤ maxDepth) :
    ((Tail.more n).tree left).height = left.height + n ∧
      ((Tail.more n).tree left).OperationsWithin maxDepth := by
  induction n generalizing left with
  | zero => exact ⟨rfl, hleft⟩
  | succ n ih =>
    have hpos := left.height_pos
    have hsum : (Expr.binary .add left (.var "a")).height = left.height + 1 := by
      rw [Expr.height, Expr.height, Nat.max_eq_left hpos]
    have hlonger : (Expr.binary .add left (.var "a")).OperationsWithin maxDepth :=
      Expr.operationsWithin_binary.2 ⟨by omega, hleft, Expr.operationsWithin_var _⟩
    obtain ⟨hheight, hwithin⟩ := ih hlonger (by omega)
    exact ⟨hheight.trans (by omega), hwithin⟩

theorem Tail.enclosures_more (n : Nat) : ∀ k ∈ (Tail.more n).enclosures, k = 0 := by
  induction n with
  | zero => exact fun k hk => absurd hk List.not_mem_nil
  | succ n ih =>
    have hcons : (Tail.more (n + 1)).enclosures = 0 :: 0 :: (Tail.more n).enclosures := rfl
    rw [hcons]
    exact List.forall_mem_cons.2 ⟨rfl, List.forall_mem_cons.2 ⟨rfl, ih⟩⟩

theorem spelled_a : (Lexeme.name "a").Spelled := ⟨.char 'a', [], rfl, rfl, nofun⟩

theorem Tail.spelled_more (n : Nat) : ∀ l ∈ (Tail.more n).yield, l.Spelled := by
  induction n with
  | zero => exact fun l hl => absurd hl List.not_mem_nil
  | succ n ih =>
    have hcons : (Tail.more (n + 1)).yield = .operator .add :: .name "a" :: (Tail.more n).yield :=
      rfl
    rw [hcons]
    exact List.forall_mem_cons.2 ⟨trivial, List.forall_mem_cons.2 ⟨spelled_a, ih⟩⟩

/-- An operand within the limits that is spelled, without a sign in front, and of the given height.
-/
structure Serves (α : Type) [Scalar α] (budget height : Nat) (d : Derivation .unary) : Prop where
  fits : Parser.Fits (α := α) budget d
  spelled : ∀ l ∈ d.yield, l.Spelled
  signs : (d.tree : Expr α).signs = 0
  height : (d.tree : Expr α).height = height

theorem serves_a : Serves α 0 1 .a where
  fits := ⟨by decide, Expr.operationsWithin_var _⟩
  spelled := List.forall_mem_singleton.2 spelled_a
  signs := rfl
  height := rfl

theorem serves_bracketed {n : Nat} (hpos : 0 < n) (hn : n + 1 ≤ maxDepth) :
    Serves α 1 (n + 1) (.bracketed n) := by
  have hname : (Expr.var "a" : Expr α).height + n ≤ maxDepth := by
    rw [Expr.height]
    omega
  obtain ⟨hheight, hwithin⟩ := Tail.tree_more n (Expr.operationsWithin_var "a") hname
  have hsum : (Derivation.bracketed n).tree = (Tail.more n).tree (.var "a" : Expr α) := rfl
  refine ⟨Parser.fits_group.2 ⟨?_, hwithin⟩, ?_, ?_, ?_⟩
  · intro k hk
    rcases List.mem_append.1 hk with hk | hk
    · exact Nat.le_of_eq (List.mem_singleton.1 hk)
    · exact Nat.le_of_eq (Tail.enclosures_more n k hk)
  · have hyield : (Derivation.bracketed n).yield =
        .openParen :: .name "a" :: ((Tail.more n).yield ++ [.closeParen]) := rfl
    rw [hyield, List.forall_mem_cons, List.forall_mem_cons, List.forall_mem_append,
      List.forall_mem_singleton]
    exact ⟨trivial, spelled_a, Tail.spelled_more n, trivial⟩
  · obtain ⟨n, rfl⟩ := Nat.exists_eq_succ_of_ne_zero (Nat.ne_of_gt hpos)
    exact (Tail.more n).signs_tree rfl
  · rw [hsum, hheight, Expr.height, Nat.add_comm]

theorem Derivation.fits_negated {budget : Nat} {d : Derivation .unary}
    (h : Parser.Fits (α := α) budget d) (k : Nat) :
    Parser.Fits (α := α) (budget + k) (d.negated k) := by
  induction k with
  | zero => exact h
  | succ k ih => exact Parser.fits_signed.2 ih

theorem Derivation.spelled_negated {d : Derivation .unary} (h : ∀ l ∈ d.yield, l.Spelled)
    (k : Nat) : ∀ l ∈ (d.negated k).yield, l.Spelled := by
  induction k with
  | zero => exact h
  | succ k ih => exact List.forall_mem_cons.2 ⟨trivial, ih⟩

theorem Derivation.tree_negated (d : Derivation .unary) (k : Nat) :
    ((d.negated k).tree : Expr α).signs = (d.tree : Expr α).signs + k ∧
      ((d.negated k).tree : Expr α).unsigned = (d.tree : Expr α).unsigned := by
  induction k with
  | zero => exact ⟨rfl, rfl⟩
  | succ k ih => exact ⟨congrArg (· + 1) ih.1, ih.2⟩

/-- With minus signs in front an operand is the tree of a text. -/
theorem Serves.exists_source {budget height : Nat} {d : Derivation .unary}
    (h : Serves α budget height d) {k : Nat} (hk : budget + k ≤ maxDepth) :
    ∃ source, ∃ expr : Expr α, parseExpression source = .ok expr ∧ expr.signs = k ∧
      expr.unsigned.height = height := by
  have hfits := Derivation.fits_negated h.fits k
  have hwhole : Parser.Fits (α := α) maxDepth (d.negated k).alone := by
    refine ⟨fun j hj => ?_, hfits.within⟩
    rw [Derivation.enclosures_alone] at hj
    exact Nat.le_trans (hfits.enclosed j hj) hk
  have hspelled : ∀ l ∈ (d.negated k).alone.yield, l.Spelled := by
    rw [Derivation.yield_alone]
    exact Derivation.spelled_negated h.spelled k
  obtain ⟨source, hsource⟩ := exists_parseExpression_eq_ok hwhole hspelled
  obtain ⟨hsigns, hunsigned⟩ := d.tree_negated (α := α) k
  refine ⟨source, _, hsource, hsigns.trans ?_, (congrArg Expr.height hunsigned).trans ?_⟩
  · rw [h.signs, Nat.zero_add]
  · have hheight := (d.tree : Expr α).height_eq
    rw [h.signs, Nat.zero_add] at hheight
    exact hheight.symm.trans h.height

end Grammar

open Grammar

/-- The tree of a derivation within the limits is within the bounds on its signs and what they stand
before. -/
theorem bounds_of_fits {d : Derivation (.chain .sum)} (h : Parser.Fits (α := α) maxDepth d) :
    (d.tree : Expr α).signs ≤ maxDepth ∧ (d.tree : Expr α).unsigned.height ≤ maxDepth ∧
      (1 < (d.tree : Expr α).unsigned.height → (d.tree : Expr α).signs < maxDepth) := by
  obtain ⟨k, hk, hle, hlt⟩ := d.exists_enclosures_ge (α := α)
  have hbudget := h.enclosed k hk
  refine ⟨Nat.le_trans hle hbudget, h.within.height_unsigned_le (by decide), fun hheight => ?_⟩
  rcases hlt hheight with hlt | ⟨hzero, -⟩
  · exact Nat.lt_of_lt_of_le hlt hbudget
  · rw [hzero]
    decide

/-- Within the bounds there is a text for all numbers of signs and all heights behind them. -/
theorem exists_source {k h : Nat} (hk : k ≤ maxDepth) (hpos : 1 ≤ h) (hh : h ≤ maxDepth)
    (hbefore : 1 < h → k < maxDepth) :
    ∃ source, ∃ expr : Expr α, parseExpression source = .ok expr ∧ expr.signs = k ∧
      expr.unsigned.height = h := by
  rcases Nat.eq_or_lt_of_le hpos with rfl | hoperation
  · exact serves_a.exists_source (by omega)
  · obtain ⟨n, rfl⟩ : ∃ n, h = n + 1 := ⟨h - 1, by omega⟩
    have hlt := hbefore hoperation
    exact (serves_bracketed (Nat.lt_of_succ_lt_succ hoperation) hh).exists_source (by omega)

/-- **The heights of trees.** A tree that is read has at most `maxDepth` signs in front, fewer if
they stand before an operation, and behind them it is at most `maxDepth` high. Nothing more is
excluded: whatever numbers these bounds allow are those of the tree of some text. -/
theorem height_of_parseExpression :
    (∀ (source : Text) (expr : Expr α), parseExpression source = .ok expr →
      expr.signs ≤ maxDepth ∧ expr.unsigned.height ≤ maxDepth ∧
      (1 < expr.unsigned.height → expr.signs < maxDepth) ∧
      (expr.height ≤ maxDepth ↔ expr.signs + expr.unsigned.height ≤ maxDepth)) ∧
    ∀ k h : Nat, k ≤ maxDepth → 1 ≤ h → h ≤ maxDepth → (1 < h → k < maxDepth) →
      ∃ source, ∃ expr : Expr α, parseExpression source = .ok expr ∧ expr.signs = k ∧
        expr.unsigned.height = h ∧ expr.height = k + h := by
  constructor
  · intro source expr hparse
    unfold parseExpression at hparse
    split at hparse
    · cases hparse
    · obtain ⟨d, -, rfl, hfits⟩ := Parser.whole_eq_ok_iff.1 hparse
      obtain ⟨hsigns, hunsigned, hbefore⟩ := bounds_of_fits hfits
      exact ⟨hsigns, hunsigned, hbefore, by rw [Expr.height_eq]⟩
  · intro k h hk hpos hh hbefore
    obtain ⟨source, expr, hparse, rfl, rfl⟩ := exists_source (α := α) hk hpos hh hbefore
    exact ⟨source, expr, hparse, rfl, rfl, expr.height_eq⟩

/-- The highest trees of all are almost twice as high as an operation may be. -/
theorem height_of_parseExpression_highest :
    (∃ source, ∃ expr : Expr Exact, parseExpression source = .ok expr ∧ expr.height = 199) ∧
    ∀ (source : Text) (expr : Expr Exact), parseExpression source = .ok expr →
      expr.height ≤ 199 := by
  constructor
  · obtain ⟨source, expr, hparse, -, -, hheight⟩ :=
      (height_of_parseExpression (α := Exact)).2 99 100 (by decide) (by decide) (by decide)
        (by decide)
    exact ⟨source, expr, hparse, hheight⟩
  · intro source expr hparse
    obtain ⟨hsigns, hunsigned, hbefore, -⟩ := height_of_parseExpression.1 source expr hparse
    have hheight := expr.height_eq
    rw [maxDepth] at hsigns hunsigned hbefore
    omega

/-- A hundred signs before a name. -/
def manySigns : Text := .ofChars (List.replicate 100 '-' ++ ['a'])

/-- Signs before a sum of a hundred names in parentheses. -/
def signedSum : Text :=
  .ofChars (List.replicate 99 '-' ++ ['('] ++ (List.replicate 99 ['a', '+']).flatten ++ ['a', ')'])

omit [Scalar α] in
theorem exists_of_map_toOption {expr? : Except ParseError (Expr α)} {h : Nat}
    (hheight : expr?.toOption.map Expr.height = some h) :
    ∃ expr, expr? = .ok expr ∧ expr.height = h := by
  cases expr? with
  | ok expr => exact ⟨expr, rfl, Option.some.inj hheight⟩
  | error e => cases hheight

/-- Both are read, as trees that are higher than `maxDepth`. -/
theorem parseExpression_too_high :
    (∃ expr : Expr Exact, parseExpression manySigns = .ok expr ∧ expr.height = 101) ∧
    (∃ expr : Expr Exact, parseExpression signedSum = .ok expr ∧ expr.height = 199) ∧
    maxDepth < 101 ∧ maxDepth < 199 := by
  refine ⟨exists_of_map_toOption ?_, exists_of_map_toOption ?_, ?_, ?_⟩
  all_goals decide +kernel

end FormulaGraph
