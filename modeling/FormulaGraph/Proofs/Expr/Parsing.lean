import FormulaGraph.Proofs.Expr.Grammar
/-!
# The reader reads the grammar

`Reads` is what one rule of the reader has to do with one symbol of the grammar: what it takes from
the front of the tokens is derived from the symbol (`sound`), and where a derivation is in front of
something that cannot belong to it, the rule takes all of it (`complete`). Both are about the
derivations that the limits allow.

A chain reads what its operands make possible (`reads_operation`), and operands with one more level
of signs and parentheses are read with the help of chains and operands with one level less
(`reads_unary`).

* `parseExpression_eq_ok_iff`: an expression is read exactly if it is derived within the limits, as
  the tree of its only derivation.
-/
namespace FormulaGraph

/-! ## Subtrees -/

namespace Expr

variable {α : Type}

/-- An expression and all its parts. -/
def subtrees : Expr α → List (Expr α)
  | .num v => [.num v]
  | .var n => [.var n]
  | .unary s e => .unary s e :: e.subtrees
  | .binary op l r => .binary op l r :: (l.subtrees ++ r.subtrees)

/-- No operation in an expression is higher than the bound. -/
def OperationsWithin (bound : Nat) (e : Expr α) : Prop :=
  ∀ op l r, .binary op l r ∈ e.subtrees → (Expr.binary op l r).height ≤ bound

variable {bound : Nat}

theorem operationsWithin_num (v : α) : (num v).OperationsWithin bound := by
  intro op l r h
  simp [subtrees] at h

theorem operationsWithin_var (n : Text) : (var n : Expr α).OperationsWithin bound := by
  intro op l r h
  simp [subtrees] at h

theorem operationsWithin_unary {s : Sign} {e : Expr α} :
    (unary s e).OperationsWithin bound ↔ e.OperationsWithin bound := by
  simp [OperationsWithin, subtrees]

theorem operationsWithin_binary {op : Operator} {l r : Expr α} :
    (binary op l r).OperationsWithin bound ↔
      (binary op l r).height ≤ bound ∧ l.OperationsWithin bound ∧ r.OperationsWithin bound := by
  constructor
  · intro h
    refine ⟨h op l r List.mem_cons_self, fun op' l' r' hmem => ?_, fun op' l' r' hmem => ?_⟩
    · exact h op' l' r' (List.mem_cons_of_mem _ (List.mem_append_left _ hmem))
    · exact h op' l' r' (List.mem_cons_of_mem _ (List.mem_append_right _ hmem))
  · rintro ⟨hself, hl, hr⟩ op' l' r' hmem
    rcases List.mem_cons.1 hmem with heq | hmem
    · exact heq ▸ hself
    · rcases List.mem_append.1 hmem with hmem | hmem
      · exact hl op' l' r' hmem
      · exact hr op' l' r' hmem

end Expr

namespace Parser

open Grammar

variable {α : Type} [Scalar α]

/-- A derivation that the limits allow. -/
structure Fits (budget : Nat) {s : Symbol} (d : Derivation s) : Prop where
  enclosed : ∀ k ∈ d.enclosures, k ≤ budget
  within : (d.tree : Expr α).OperationsWithin maxDepth

/-- The rule reads the symbol. -/
structure Reads (s : Symbol) (budget : Nat) (rule : Rule α) : Prop where
  sound : ∀ {ts : List Token} {p : Parsed α ts}, rule ts = .ok p →
    p.height = p.expr.height ∧ ∃ d : Derivation s, d.tree = p.expr ∧ Fits (α := α) budget d ∧
      ts.map (·.lexeme) = d.yield ++ p.rest.map (·.lexeme)
  complete : ∀ {ts : List Token} (d : Derivation s) {rest : List Lexeme}, Fits (α := α) budget d →
    Stops s rest → ts.map (·.lexeme) = d.yield ++ rest →
    ∃ p, rule ts = .ok p ∧ p.expr = d.tree ∧ p.rest.map (·.lexeme) = rest

/-! ## Chains -/

section

variable {level : Level} {budget : Nat} {operand : Rule α}

/-- The left operand is in the tree that a tail makes of it. -/
theorem operationsWithin_of_tail : (t : Tail level) → {left : Expr α} →
    (t.tree left).OperationsWithin maxDepth → left.OperationsWithin maxDepth
  | .nil, _, h => h
  | .cons _ _ _ more, _, h =>
    (Expr.operationsWithin_binary.1 (operationsWithin_of_tail more h)).2.1

theorem chain_sound (hoperand : Reads level.operand budget operand) {ts : List Token}
    {left : Expr α} (hleft : left.OperationsWithin maxDepth) {c : Chain α ts}
    (h : chain level.operators operand left left.height ts = .ok c) :
    c.height = c.expr.height ∧ c.expr.OperationsWithin maxDepth ∧
      ∃ t : Tail level, t.tree left = c.expr ∧ (∀ k ∈ t.enclosures, k ≤ budget) ∧
        ts.map (·.lexeme) = t.yield ++ c.rest.map (·.lexeme) := by
  induction hn : ts.length using Nat.strongRecOn generalizing ts left with | _ n ih
  unfold chain at h
  split at h
  · rename_i op position rest
    split at h
    · rename_i hop
      split at h
      · cases h
      · rename_i right hright
        obtain ⟨hheight, d, hd, hfits, hrest⟩ := hoperand.sound hright
        rw [hheight] at h
        dsimp only at h
        split at h
        · cases h
        · rename_i hlow
          split at h
          · cases h
          · rename_i c' hc'
            obtain rfl := Except.ok.inj h
            have hnode : (Expr.binary op left right.expr).OperationsWithin maxDepth := by
              refine Expr.operationsWithin_binary.2 ⟨Nat.not_lt.1 hlow, hleft, ?_⟩
              exact hd ▸ hfits.within
            have hshorter : right.rest.length < n := by
              have := right.shorter
              rw [← hn, List.length_cons]
              omega
            obtain ⟨hc, hwithin, t, ht, hk, hts⟩ := ih _ hshorter hnode hc' rfl
            refine ⟨hc, hwithin, .cons op hop d t, ?_, ?_, ?_⟩
            · rw [Tail.tree, hd, ht]
            · rw [Tail.enclosures]
              intro k hmem
              rcases List.mem_cons.1 hmem with rfl | hmem
              · exact Nat.zero_le _
              · rcases List.mem_append.1 hmem with hmem | hmem
                · exact hfits.enclosed k hmem
                · exact hk k hmem
            · rw [Tail.yield, List.map_cons, hrest, hts, List.cons_append, List.append_assoc]
    · obtain rfl := Except.ok.inj h
      exact ⟨rfl, hleft, .nil, rfl, fun _ hk => absurd hk List.not_mem_nil, rfl⟩
  · obtain rfl := Except.ok.inj h
    exact ⟨rfl, hleft, .nil, rfl, fun _ hk => absurd hk List.not_mem_nil, rfl⟩

omit [Scalar α] in
/-- A chain ends where no operator of its own follows. -/
theorem chain_of_stops {ts : List Token} (left : Expr α)
    (h : Stops (.chain level) (ts.map (·.lexeme))) :
    chain level.operators operand left left.height ts =
      .ok ⟨left, left.height, ts, Nat.le_refl _⟩ := by
  unfold chain
  split
  · rename_i op position rest
    split
    · rename_i hop
      exact absurd rfl (h op (operators_subset level hop))
    · rfl
  · rfl

theorem chain_complete (hoperand : Reads level.operand budget operand) : (t : Tail level) →
    {ts : List Token} → {rest : List Lexeme} → {left : Expr α} → (∀ k ∈ t.enclosures, k ≤ budget) →
    (t.tree left).OperationsWithin maxDepth → Stops (.chain level) rest →
    ts.map (·.lexeme) = t.yield ++ rest →
    ∃ c, chain level.operators operand left left.height ts = .ok c ∧ c.expr = t.tree left ∧
      c.rest.map (·.lexeme) = rest
  | .nil, ts, rest, left, _, _, hstops, hts => by
    have hts : ts.map (·.lexeme) = rest := hts
    exact ⟨_, chain_of_stops left (hts ▸ hstops), rfl, hts⟩
  | .cons op mem d more, ts, rest, left, hk, hwithin, hstops, hts => by
    rw [Tail.yield, List.cons_append, List.append_assoc, List.map_eq_cons_iff] at hts
    obtain ⟨⟨_, position⟩, ts, rfl, rfl, hts⟩ := hts
    rw [Tail.enclosures, List.forall_mem_cons, List.forall_mem_append] at hk
    rw [Tail.tree] at hwithin
    -- the operation at the front is part of the whole tree
    have hnode := operationsWithin_of_tail more hwithin
    obtain ⟨hlow, -, hright⟩ := Expr.operationsWithin_binary.1 hnode
    obtain ⟨right, hp, hexpr, hrest⟩ :=
      hoperand.complete d ⟨hk.2.1, hright⟩ (hstops.operand more) hts
    obtain ⟨hheight, -⟩ := hoperand.sound hp
    rw [← hexpr] at hwithin hlow
    obtain ⟨c, hc, htree, hlast⟩ := chain_complete hoperand more hk.2.2 hwithin hstops hrest
    have hnoLonger : c.rest.length ≤ ts.length + 1 := by
      have := c.noLonger
      have := right.shorter
      omega
    refine ⟨⟨c.expr, c.height, c.rest, hnoLonger⟩, ?_, ?_, hlast⟩
    · have hhigher : max left.height right.height + 1 =
          (Expr.binary op left right.expr).height := by
        rw [hheight, Expr.height]
      rw [chain]
      simp only [if_pos mem, hp, hhigher, if_neg (Nat.not_lt.2 hlow), hc]
    · rw [htree, hexpr, Tail.tree]

/-- A rule for operands makes a rule for chains of them. -/
theorem reads_operation (hoperand : Reads level.operand budget operand) :
    Reads (.chain level) budget (operation level.operators operand) where
  sound {ts p} h := by
    unfold operation at h
    split at h
    · cases h
    · rename_i first hfirst
      obtain ⟨hheight, d, hd, hfits, hts⟩ := hoperand.sound hfirst
      rw [hheight] at h
      split at h
      · cases h
      · rename_i c hc
        obtain rfl := Except.ok.inj h
        have hleft : first.expr.OperationsWithin maxDepth := hd ▸ hfits.within
        obtain ⟨hcheight, hwithin, t, ht, hk, hrest⟩ := chain_sound hoperand hleft hc
        have htree : (Derivation.chain d t).tree = c.expr := by rw [Derivation.tree, hd, ht]
        refine ⟨hcheight, .chain d t, htree, ⟨?_, htree.symm ▸ hwithin⟩, ?_⟩
        · rw [Derivation.enclosures]
          intro k hmem
          rcases List.mem_append.1 hmem with hmem | hmem
          · exact hfits.enclosed k hmem
          · exact hk k hmem
        · rw [Derivation.yield, hts, hrest, List.append_assoc]
  complete {ts} d rest hfits hstops hts := by
    cases d with
    | chain first more =>
      rw [Derivation.yield, List.append_assoc] at hts
      obtain ⟨henclosed, hwithin⟩ := hfits
      rw [Derivation.enclosures, List.forall_mem_append] at henclosed
      rw [Derivation.tree] at hwithin
      obtain ⟨p, hp, hexpr, hrest⟩ := hoperand.complete first
        ⟨henclosed.1, operationsWithin_of_tail more hwithin⟩ (hstops.operand more) hts
      obtain ⟨hheight, -⟩ := hoperand.sound hp
      rw [← hexpr] at hwithin
      obtain ⟨c, hc, htree, hlast⟩ := chain_complete hoperand more henclosed.2 hwithin hstops hrest
      refine ⟨⟨c.expr, c.height, c.rest, Nat.lt_of_le_of_lt c.noLonger p.shorter⟩, ?_, ?_, hlast⟩
      · simp only [operation, hp, hheight, hc]
      · rw [htree, hexpr, Derivation.tree]

end

/-! ## Operands -/

theorem sign?_eq_some {op : Operator} {s : Sign} : sign? op = some s ↔ op = signOperator s := by
  cases op <;> cases s <;> simp [sign?, signOperator]

/-- A literal or name, whatever the budget. -/
theorem leaf_sound {token : Token} {rest : List Token} {p : Parsed α (token :: rest)}
    (h : leaf token rest = .ok p) (budget : Nat) :
    p.height = p.expr.height ∧ ∃ d : Derivation .unary, d.tree = p.expr ∧
      Fits (α := α) budget d ∧
      (token :: rest).map (·.lexeme) = d.yield ++ p.rest.map (·.lexeme) := by
  unfold leaf at h
  split at h
  · rename_i run hrun
    obtain rfl := Except.ok.inj h
    refine ⟨rfl, .primary (.number run), rfl, ⟨?_, Expr.operationsWithin_num _⟩, ?_⟩
    · simp [Derivation.enclosures]
    · simp [Derivation.yield, hrun]
  · rename_i run hrun
    obtain rfl := Except.ok.inj h
    refine ⟨rfl, .primary (.name run), rfl, ⟨?_, Expr.operationsWithin_var _⟩, ?_⟩
    · simp [Derivation.enclosures]
    · simp [Derivation.yield, hrun]
  · cases h

omit [Scalar α] in
theorem closed_eq_ok {stop : Nat} {ts : List Token} {inner : Parsed α ts} {token : Token}
    {p : Parsed α (token :: ts)} (h : closed stop inner token = .ok p) :
    ∃ position, inner.rest = ⟨.closeParen, position⟩ :: p.rest ∧ p.expr = inner.expr ∧
      p.height = inner.height := by
  unfold closed at h
  split at h
  · rename_i position after hafter
    obtain rfl := Except.ok.inj h
    exact ⟨position, hafter, rfl, rfl⟩
  · cases h
  · cases h

omit [Scalar α] in
theorem closed_of_rest (stop : Nat) {ts : List Token} {inner : Parsed α ts} (token : Token)
    {position : Nat} {after : List Token} (h : inner.rest = ⟨.closeParen, position⟩ :: after) :
    ∃ p, closed stop inner token = .ok p ∧ p.expr = inner.expr ∧ p.rest = after := by
  unfold closed
  split
  · rename_i position' after' hafter
    obtain ⟨-, rfl⟩ := List.cons.inj (h.symm.trans hafter)
    exact ⟨_, rfl, rfl, rfl⟩
  · rename_i other _ hne hother
    obtain ⟨rfl, -⟩ := List.cons.inj (h.symm.trans hother)
    exact absurd rfl (hne position)
  · rename_i hnil
    cases h.symm.trans hnil

theorem reads_sum {budget : Nat} {unary : Rule α} (h : Reads .unary budget unary) :
    Reads (.chain .sum) budget (sum unary) := by
  have hproduct : Reads (.chain .product) budget (product unary) := reads_operation h
  exact reads_operation hproduct

theorem fits_signed {budget : Nat} {sign : Sign} {d : Derivation .unary} :
    Fits (α := α) (budget + 1) (.signed sign d) ↔ Fits (α := α) budget d := by
  constructor
  · rintro ⟨henclosed, hwithin⟩
    refine ⟨fun k hk => ?_, Expr.operationsWithin_unary.1 hwithin⟩
    exact Nat.le_of_succ_le_succ
      (henclosed (k + 1) (List.mem_cons_of_mem _ (List.mem_map_of_mem hk)))
  · rintro ⟨henclosed, hwithin⟩
    refine ⟨?_, Expr.operationsWithin_unary.2 hwithin⟩
    rw [Derivation.enclosures, List.forall_mem_cons, List.forall_mem_map]
    exact ⟨Nat.zero_le _, fun k hk => Nat.succ_le_succ (henclosed k hk)⟩

theorem fits_group {budget : Nat} {d : Derivation (.chain .sum)} :
    Fits (α := α) (budget + 1) (.primary (.group d)) ↔ Fits (α := α) budget d := by
  have hiff : (∀ k ∈ (Derivation.primary (.group d)).enclosures, k ≤ budget + 1) ↔
      ∀ k ∈ d.enclosures, k ≤ budget := by
    rw [Derivation.enclosures, Derivation.enclosures, List.forall_mem_cons, List.forall_mem_append,
      List.forall_mem_map]
    simp
  exact ⟨fun h => ⟨hiff.1 h.enclosed, h.within⟩, fun h => ⟨hiff.2 h.enclosed, h.within⟩⟩

theorem not_fits_signed {sign : Sign} {d : Derivation .unary} :
    ¬Fits (α := α) 0 (.signed sign d) := by
  intro h
  have hone := h.enclosed 1
    (List.mem_cons_of_mem _ (List.mem_map_of_mem d.zero_mem_enclosures))
  omega

theorem not_fits_group {d : Derivation (.chain .sum)} :
    ¬Fits (α := α) 0 (.primary (.group d)) := by
  intro h
  have hone := h.enclosed 1 (List.mem_cons_of_mem _
    (List.mem_append_left _ (List.mem_map_of_mem d.zero_mem_enclosures)))
  omega

theorem unary_sound {stop budget : Nat}
    (hbelow : ∀ b, budget = b + 1 → Reads (α := α) .unary b (unary stop b)) {ts : List Token}
    {p : Parsed α ts} (h : unary stop budget ts = .ok p) :
    p.height = p.expr.height ∧ ∃ d : Derivation .unary, d.tree = p.expr ∧
      Fits (α := α) budget d ∧ ts.map (·.lexeme) = d.yield ++ p.rest.map (·.lexeme) := by
  unfold unary at h
  split at h
  · cases h
  · split at h
    · cases h
    · split at h
      · cases h
      · exact leaf_sound h 0
    · exact leaf_sound h 0
  · rename_i budget token rest
    have hunary := hbelow budget rfl
    split at h
    · rename_i hopen
      split at h
      · cases h
      · rename_i inner hinner
        obtain ⟨hheight, d, hd, hfits, hrest⟩ := (reads_sum hunary).sound hinner
        obtain ⟨position, hclose, hexpr, hpheight⟩ := closed_eq_ok h
        refine ⟨by rw [hpheight, hheight, hexpr], .primary (.group d), hd.trans hexpr.symm,
          fits_group.2 hfits, ?_⟩
        rw [List.map_cons, hopen, hrest, hclose]
        simp [Derivation.yield]
    · rename_i op hop
      split at h
      · exact leaf_sound h _
      · rename_i sign hsign
        split at h
        · cases h
        · rename_i operand hoperand
          obtain rfl := Except.ok.inj h
          obtain ⟨hheight, d, hd, hfits, hrest⟩ := hunary.sound hoperand
          refine ⟨by rw [hheight, Expr.height], .signed sign d, by rw [Derivation.tree, hd],
            fits_signed.2 hfits, ?_⟩
          rw [List.map_cons, hop, hrest, sign?_eq_some.1 hsign]
          rfl
    · exact leaf_sound h _

theorem unary_complete {stop budget : Nat}
    (hbelow : ∀ b, budget = b + 1 → Reads (α := α) .unary b (unary stop b)) {ts : List Token}
    (d : Derivation .unary) {rest : List Lexeme} (hfits : Fits (α := α) budget d)
    (hts : ts.map (·.lexeme) = d.yield ++ rest) :
    ∃ p, unary stop budget ts = .ok p ∧ p.expr = (d.tree : Expr α) ∧
      p.rest.map (·.lexeme) = rest := by
  cases d with
  | signed sign operand =>
    rw [Derivation.yield, List.cons_append, List.map_eq_cons_iff] at hts
    obtain ⟨⟨_, position⟩, ts, rfl, rfl, hts⟩ := hts
    cases budget with
    | zero => exact absurd hfits not_fits_signed
    | succ budget =>
      obtain ⟨p, hp, hexpr, hrest⟩ := (hbelow budget rfl).complete operand (fits_signed.1 hfits)
        (fun _ => nofun) hts
      have hsign : sign? (signOperator sign) = some sign := sign?_eq_some.2 rfl
      refine ⟨⟨.unary sign p.expr, p.height + 1, p.rest, Nat.lt_succ_of_lt p.shorter⟩, ?_, ?_,
        hrest⟩
      · simp only [unary, hsign, hp]
      · rw [hexpr, Derivation.tree]
  | primary inner =>
    rw [Derivation.yield] at hts
    cases inner with
    | number run =>
      rw [Derivation.yield, List.cons_append, List.map_eq_cons_iff] at hts
      obtain ⟨⟨_, position⟩, ts, rfl, rfl, hts⟩ := hts
      refine ⟨⟨.num (literal run), 1, ts, Nat.lt_succ_self _⟩, ?_, rfl, hts⟩
      cases budget <;> rfl
    | name run =>
      rw [Derivation.yield, List.cons_append, List.map_eq_cons_iff] at hts
      obtain ⟨⟨_, position⟩, ts, rfl, rfl, hts⟩ := hts
      refine ⟨⟨.var run, 1, ts, Nat.lt_succ_self _⟩, ?_, rfl, hts⟩
      cases budget <;> rfl
    | group inner =>
      rw [Derivation.yield, List.cons_append, List.append_assoc, List.map_eq_cons_iff] at hts
      obtain ⟨⟨_, position⟩, ts, rfl, rfl, hts⟩ := hts
      cases budget with
      | zero => exact absurd hfits not_fits_group
      | succ budget =>
        obtain ⟨p, hp, hexpr, hrest⟩ := (reads_sum (hbelow budget rfl)).complete inner
          (fits_group.1 hfits) (stops_closeParen rest) hts
        rw [List.cons_append, List.map_eq_cons_iff] at hrest
        obtain ⟨⟨_, close⟩, after, hafter, rfl, hlast⟩ := hrest
        obtain ⟨q, hq, hqexpr, hqrest⟩ := closed_of_rest stop ⟨.openParen, position⟩ hafter
        refine ⟨q, ?_, ?_, ?_⟩
        · simp only [unary, hp, hq]
        · rw [hqexpr, hexpr, Derivation.tree, Derivation.tree]
        · rw [hqrest]
          exact hlast

/-- Operands are read, by induction on the budget. -/
theorem reads_unary (stop budget : Nat) : Reads (α := α) .unary budget (unary stop budget) := by
  induction budget with
  | zero =>
    have hbelow : ∀ b, 0 = b + 1 → Reads (α := α) .unary b (unary stop b) := by
      intro b hb
      omega
    exact ⟨unary_sound hbelow, fun d _ hfits _ => unary_complete hbelow d hfits⟩
  | succ budget ih =>
    have hbelow : ∀ b, budget + 1 = b + 1 → Reads (α := α) .unary b (unary stop b) := by
      rintro b ⟨⟩
      exact ih
    exact ⟨unary_sound hbelow, fun d _ hfits _ => unary_complete hbelow d hfits⟩

/-! ## Whole texts -/

theorem whole_eq_ok_iff {stop : Nat} {ts : List Token} {expr : Expr α} :
    whole stop ts = .ok expr ↔ ∃ d : Derivation (.chain .sum),
      d.yield = ts.map (·.lexeme) ∧ d.tree = expr ∧ Fits (α := α) maxDepth d := by
  have hreads := reads_sum (reads_unary (α := α) stop maxDepth)
  unfold whole
  constructor
  · intro h
    split at h
    · cases h
    · split at h
      · cases h
      · rename_i parsed hparsed
        obtain ⟨-, d, hd, hfits, hts⟩ := hreads.sound hparsed
        split at h
        · rename_i hrest
          obtain rfl := Except.ok.inj h
          rw [hrest] at hts
          exact ⟨d, by simpa using hts.symm, hd, hfits⟩
        · cases h
        · cases h
  · rintro ⟨d, hyield, rfl, hfits⟩
    obtain ⟨p, hp, hexpr, hrest⟩ := hreads.complete d hfits (stops_nil _)
      (hyield.symm.trans (List.append_nil _).symm)
    have hne : ts ≠ [] := by
      rintro rfl
      exact absurd p.shorter (Nat.not_lt_zero _)
    rw [if_neg hne, hp]
    simp only [List.map_eq_nil_iff.1 hrest, hexpr]

end Parser

open Grammar

/-- **Reading is deriving.** A text is read as a tree exactly if its tokens have a derivation within
the limits with this tree, and tokens never have more than one derivation. -/
theorem parseExpression_eq_ok_iff {α : Type} [Scalar α] (source : Text) (expr : Expr α) :
    (parseExpression source = .ok expr ↔
      ∃ ts, tokenize source = .ok ts ∧ ∃ d : Derivation (.chain .sum),
        d.yield = ts.map (·.lexeme) ∧ d.tree = expr ∧ (∀ k ∈ d.enclosures, k ≤ maxDepth) ∧
        ∀ op l r, .binary op l r ∈ expr.subtrees → (Expr.binary op l r).height ≤ maxDepth) ∧
    ∀ d d' : Derivation (.chain .sum), d.yield = d'.yield → d = d' := by
  refine ⟨?_, fun d d' h => Derivation.unambiguous h⟩
  unfold parseExpression
  cases tokenize source with
  | error e => simp
  | ok ts =>
    simp only [Parser.whole_eq_ok_iff, Except.ok.injEq, exists_eq_left']
    constructor
    · rintro ⟨d, hyield, rfl, henclosed, hwithin⟩
      exact ⟨d, hyield, rfl, henclosed, hwithin⟩
    · rintro ⟨d, hyield, rfl, henclosed, hwithin⟩
      exact ⟨d, hyield, rfl, henclosed, hwithin⟩

end FormulaGraph
