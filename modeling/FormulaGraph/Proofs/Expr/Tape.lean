import FormulaGraph.Expr.Parser
/-!
# Reading from a tape

The reader of expressions takes tokens from the front of a list, and where the list is empty it is
at the end of the text. Here the same rules read a tape by index: a cell for each token, and one for
the end. A rule can ask for a cell that the tape does not have, and then it ends out of range.

An operand takes its cell before it looks at it, and at the end of the text the index is then behind
the tape. What keeps the reader on the tape is that it ends there and looks at nothing more.

* `whole_laid`: on the tape of any tokens, the reader ends with the tree or the refusal of the list.
  So it asks for no cell behind the end.
* `whole_located`: what is refused is at a cell of the tape.
-/
namespace FormulaGraph.Tape

/-- A lexeme or the end of the text, and where it stands. -/
structure Cell where
  lexeme? : Option Lexeme
  position : Nat

/-- Why there is no tree: the text is refused, or there is no such cell. -/
inductive Halt where
  | refused (e : ParseError)
  | outOfRange (index : Nat)

variable {α : Type}

/-- A subtree with its height, and the index of the next cell. -/
structure Read (α : Type) (least : Nat) where
  expr : Expr α
  height : Nat
  next : Nat
  least_le : least ≤ next

/-- A grammar rule. It takes the first cell at least. -/
abbrev Rule (α : Type) := (i : Nat) → Except Halt (Read α (i + 1))

/-! ## The rules -/

def Cell.operator? (ops : List Operator) (c : Cell) : Option Operator :=
  match c.lexeme? with
  | some (.operator op) => if op ∈ ops then some op else none
  | _ => none

def Cell.sign? (c : Cell) : Option Sign :=
  match c.lexeme? with
  | some (.operator op) => Parser.sign? op
  | _ => none

/-- Extends a left operand by further operators from `ops` and their operands. -/
def chain (tape : List Cell) (ops : List Operator) (operand : Rule α) (left : Expr α)
    (height i : Nat) : Except Halt (Read α i) :=
  match _h : tape[i]? with
  | none => .error (.outOfRange i)
  | some cell =>
    match cell.operator? ops with
    | none => .ok ⟨left, height, i, Nat.le_refl i⟩
    | some op =>
      match operand (i + 1) with
      | .error e => .error e
      | .ok right =>
        let higher := max height right.height + 1
        if maxDepth < higher then .error (.refused ⟨.tooDeep, cell.position⟩)
        else
          match chain tape ops operand (.binary op left right.expr) higher right.next with
          | .error e => .error e
          | .ok c => .ok ⟨c.expr, c.height, c.next, by
              have := right.least_le
              have := c.least_le
              omega⟩
termination_by tape.length - i
decreasing_by
  obtain ⟨hi, -⟩ := List.getElem?_eq_some_iff.1 _h
  have := right.least_le
  omega

/-- One operand and a chain of operators behind it. -/
def operation (tape : List Cell) (ops : List Operator) (operand : Rule α) : Rule α := fun i =>
  match operand i with
  | .error e => .error e
  | .ok first =>
    match chain tape ops operand first.expr first.height first.next with
    | .error e => .error e
    | .ok c => .ok ⟨c.expr, c.height, c.next, Nat.le_trans first.least_le c.least_le⟩

def sum (tape : List Cell) (unary : Rule α) : Rule α :=
  operation tape [.add, .sub] (operation tape [.mul, .div] unary)

/-- Closes a parenthesis around what was read. -/
def closed (tape : List Cell) (i : Nat) (inner : Read α (i + 2)) :
    Except Halt (Read α (i + 1)) :=
  match tape[inner.next]? with
  | none => .error (.outOfRange inner.next)
  | some cell =>
    if cell.lexeme? = some .closeParen then
      .ok ⟨inner.expr, inner.height, inner.next + 1, by
        have := inner.least_le
        omega⟩
    else .error (.refused ⟨.missingClose, cell.position⟩)

section

variable [Scalar α]

/-- Takes a cell and then looks at it. The rule for what is nested is absent at the last level. -/
def primary (tape : List Cell) (nested : Option (Rule α)) : Rule α := fun i =>
  match tape[i]? with
  | none => .error (.outOfRange i)
  | some cell =>
    match cell.lexeme? with
    | none => .error (.refused ⟨.unexpectedEnd, cell.position⟩)
    | some .openParen =>
      match nested with
      | none => .error (.refused ⟨.tooDeep, cell.position⟩)
      | some unary =>
        match sum tape unary (i + 1) with
        | .error e => .error e
        | .ok inner => closed tape i inner
    | some lexeme =>
      match Parser.leaf ⟨lexeme, cell.position⟩ [] with
      | .error e => .error (.refused e)
      | .ok p => .ok ⟨p.expr, p.height, i + 1, Nat.le_refl _⟩

/-- A sign and its operand, or what has no sign. -/
def signed (tape : List Cell) (nested : Option (Rule α)) : Rule α := fun i =>
  match tape[i]? with
  | none => .error (.outOfRange i)
  | some cell =>
    match cell.sign? with
    | none => primary tape nested i
    | some s =>
      match nested with
      | none => .error (.refused ⟨.tooDeep, cell.position⟩)
      | some unary =>
        match unary (i + 1) with
        | .error e => .error e
        | .ok operand => .ok ⟨.unary s operand.expr, operand.height + 1, operand.next,
            Nat.le_of_succ_le operand.least_le⟩

/-- The rule for operands, with `budget` further levels of signs and parentheses. -/
def unary (tape : List Cell) : (budget : Nat) → Rule α
  | 0 => signed tape none
  | budget + 1 => signed tape (some (unary tape budget))

/-- The tree of a whole tape. -/
def whole (tape : List Cell) : Except Halt (Expr α) :=
  match tape[0]? with
  | none => .error (.outOfRange 0)
  | some first =>
    match first.lexeme? with
    | none => .error (.refused ⟨.empty, first.position⟩)
    | some _ =>
      match sum tape (unary tape maxDepth) 0 with
      | .error e => .error e
      | .ok read =>
        match tape[read.next]? with
        | none => .error (.outOfRange read.next)
        | some cell =>
          match cell.lexeme? with
          | none => .ok read.expr
          | some .closeParen => .error (.refused ⟨.unmatchedClose, cell.position⟩)
          | some lexeme => .error (.refused ⟨.unexpectedToken lexeme.text, cell.position⟩)

end

/-! ## Tapes of tokens -/

/-- A cell for each token, and one for the end of the text. While they are read, the index is where
the rest of the list begins on the tape. -/
def laid (stop : Nat) (ts : List Token) : List Cell :=
  ts.map (fun t => ⟨some t.lexeme, t.position⟩) ++ [⟨none, stop⟩]

section

variable {tape : List Cell} {stop i : Nat}

/-- The cell of the first token, or of the end. -/
def first (stop : Nat) : List Token → Cell
  | [] => ⟨none, stop⟩
  | t :: _ => ⟨some t.lexeme, t.position⟩

theorem getElem?_of_drop {ts : List Token} (h : tape.drop i = laid stop ts) :
    tape[i]? = some (first stop ts) := by
  rw [← List.head?_drop, h]
  cases ts <;> rfl

theorem drop_of_drop_cons {t : Token} {ts : List Token} (h : tape.drop i = laid stop (t :: ts)) :
    tape.drop (i + 1) = laid stop ts := by
  rw [← List.tail_drop, h]
  rfl

end

/-- The tape ends as the list does: with the same refusal, or with results that look the same. -/
inductive Agrees {β γ δ : Type} (onList : β → δ) (onTape : γ → δ) :
    Except ParseError β → Except Halt γ → Prop where
  | refused (e : ParseError) : Agrees onList onTape (.error e) (.error (.refused e))
  | read {b : β} {c : γ} (h : onTape c = onList b) : Agrees onList onTape (.ok b) (.ok c)

theorem Agrees.elim {β γ δ : Type} {onList : β → δ} {onTape : γ → δ} {x : Except ParseError β}
    {y : Except Halt γ} (h : Agrees onList onTape x y) :
    (∃ e, x = .error e ∧ y = .error (.refused e)) ∨
      ∃ b c, x = .ok b ∧ y = .ok c ∧ onTape c = onList b := by
  cases h with
  | refused e => exact .inl ⟨e, rfl, rfl⟩
  | read h => exact .inr ⟨_, _, rfl, rfl, h⟩

/-- What was read, with what is left to read. -/
abbrev View (α : Type) := Expr α × Nat × List Cell

def Read.view (tape : List Cell) {least : Nat} (r : Read α least) : View α :=
  (r.expr, r.height, tape.drop r.next)

def viewParsed (stop : Nat) {ts : List Token} (p : Parser.Parsed α ts) : View α :=
  (p.expr, p.height, laid stop p.rest)

theorem Read.of_view {least : Nat} (r : Read α least) {e : Expr α} {height : Nat}
    {cells : List Cell} {tape : List Cell} (h : r.view tape = (e, height, cells)) :
    r.expr = e ∧ r.height = height ∧ tape.drop r.next = cells := by
  obtain ⟨hexpr, h⟩ := Prod.mk.inj h
  exact ⟨hexpr, Prod.mk.inj h⟩

def viewChain (stop : Nat) {ts : List Token} (c : Parser.Chain α ts) : View α :=
  (c.expr, c.height, laid stop c.rest)

/-- A rule does on the tape what another does on the list. -/
def Follows (tape : List Cell) (stop : Nat) (onList : Parser.Rule α) (onTape : Rule α) : Prop :=
  ∀ {ts : List Token} {i : Nat}, tape.drop i = laid stop ts →
    Agrees (viewParsed stop) (Read.view tape) (onList ts) (onTape i)

section

variable {tape : List Cell} {stop : Nat} {operand : Parser.Rule α} {operandAt : Rule α}

theorem chain_agrees (ops : List Operator) (h : Follows tape stop operand operandAt)
    {ts : List Token} {i : Nat} (hi : tape.drop i = laid stop ts) (left : Expr α) (height : Nat) :
    Agrees (viewChain stop) (Read.view tape) (Parser.chain ops operand left height ts)
      (chain tape ops operandAt left height i) := by
  induction hn : ts.length using Nat.strongRecOn generalizing ts i left height with | _ n ih
  have hdone : Agrees (viewChain stop) (Read.view tape)
      (.ok ⟨left, height, ts, Nat.le_refl _⟩) (.ok ⟨left, height, i, Nat.le_refl i⟩) :=
    .read (by rw [Read.view, hi, viewChain])
  rw [chain]
  split
  · rename_i hnone
    cases (getElem?_of_drop hi).symm.trans hnone
  · rename_i cell hcell
    obtain rfl := Option.some.inj ((getElem?_of_drop hi).symm.trans hcell)
    unfold Parser.chain
    split
    · rename_i op position rest
      split
      · rename_i hop
        have hoperator : (first stop (⟨.operator op, position⟩ :: rest)).operator? ops = some op :=
          if_pos hop
        rw [hoperator]
        rcases (h (drop_of_drop_cons hi)).elim with ⟨e, hx, hy⟩ | ⟨p, r, hx, hy, hview⟩
        · simp only [hx, hy]
          exact .refused e
        · obtain ⟨hexpr, hheight, hnext⟩ := r.of_view hview
          simp only [hx, hy, hexpr, hheight]
          split
          · exact .refused _
          · have hshorter : p.rest.length < n := by
              have := p.shorter
              rw [← hn, List.length_cons]
              omega
            have hmore := ih _ hshorter hnext (.binary op left p.expr) (max height p.height + 1) rfl
            rcases hmore.elim with ⟨e, hx, hy⟩ | ⟨p', r', hx, hy, hview⟩
            · simp only [hx, hy]
              exact .refused e
            · simp only [hx, hy]
              exact .read hview
      · rename_i hop
        have hoperator : (first stop (⟨.operator op, position⟩ :: rest)).operator? ops = none :=
          if_neg hop
        rw [hoperator]
        exact hdone
    · rename_i hnot
      have hoperator : (first stop ts).operator? ops = none := by
        rcases ts with _ | ⟨⟨lexeme, position⟩, rest⟩
        · rfl
        · cases lexeme with
          | operator op => exact absurd rfl (hnot op position rest)
          | _ => rfl
      rw [hoperator]
      exact hdone

theorem follows_operation {ops : List Operator} (h : Follows tape stop operand operandAt) :
    Follows tape stop (Parser.operation ops operand) (operation tape ops operandAt) := by
  intro ts i hi
  rw [Parser.operation, operation]
  rcases (h hi).elim with ⟨e, hx, hy⟩ | ⟨p, r, hx, hy, hview⟩
  · simp only [hx, hy]
    exact .refused e
  · obtain ⟨hexpr, hheight, hnext⟩ := r.of_view hview
    simp only [hx, hy, hexpr, hheight]
    have hmore := chain_agrees ops h hnext p.expr p.height
    rcases hmore.elim with ⟨e, hx, hy⟩ | ⟨p', r', hx, hy, hview⟩
    · simp only [hx, hy]
      exact .refused e
    · simp only [hx, hy]
      exact .read hview

theorem follows_sum (h : Follows tape stop operand operandAt) :
    Follows tape stop (Parser.sum operand) (sum tape operandAt) :=
  follows_operation (follows_operation h)

theorem closed_agrees {ts : List Token} {inner : Parser.Parsed α ts} {i : Nat}
    {innerAt : Read α (i + 2)} (hview : innerAt.view tape = viewParsed stop inner) (token : Token) :
    Agrees (viewParsed stop) (Read.view tape) (Parser.closed stop inner token)
      (closed tape i innerAt) := by
  obtain ⟨hexpr, hheight, hnext⟩ := innerAt.of_view hview
  rw [closed, getElem?_of_drop hnext]
  unfold Parser.closed
  dsimp only
  split
  · rename_i position after hrest
    have hafter : tape.drop (innerAt.next + 1) = laid stop after :=
      drop_of_drop_cons (hnext.trans (congrArg _ hrest))
    rw [if_pos (by rw [hrest, first])]
    exact .read (by rw [Read.view, viewParsed, hexpr, hheight, hafter])
  · rename_i other after hnot hrest
    obtain ⟨lexeme, position⟩ := other
    have hopen : some lexeme ≠ some .closeParen := by
      rintro ⟨⟩
      exact hnot position rfl
    rw [hrest, first, if_neg hopen]
    exact .refused _
  · rename_i hrest
    rw [hrest, first, if_neg nofun]
    exact .refused _

variable [Scalar α]

theorem leaf_agrees {token : Token} {rest : List Token} {i : Nat}
    (hi : tape.drop i = laid stop (token :: rest)) (nested : Option (Rule α))
    (hopen : token.lexeme ≠ .openParen) :
    Agrees (viewParsed stop) (Read.view tape) (Parser.leaf (α := α) token rest)
      (primary tape nested i) := by
  have hrest := drop_of_drop_cons hi
  rw [primary, getElem?_of_drop hi]
  obtain ⟨lexeme, position⟩ := token
  cases lexeme with
  | openParen => exact absurd rfl hopen
  | number run => exact .read (by rw [Read.view, hrest]; rfl)
  | name run => exact .read (by rw [Read.view, hrest]; rfl)
  | operator op => exact .refused _
  | closeParen => exact .refused _

theorem follows_unary (budget : Nat) :
    Follows tape stop (Parser.unary (α := α) stop budget) (unary tape budget) := by
  induction budget with
  | zero =>
    intro ts i hi
    have hcell := getElem?_of_drop hi
    rw [unary, signed, hcell]
    cases ts with
    | nil =>
      rw [Parser.unary]
      simp only [first, Cell.sign?, primary, hcell]
      exact .refused _
    | cons token rest =>
      obtain ⟨lexeme, position⟩ := token
      cases lexeme with
      | openParen =>
        simp only [first, Cell.sign?, primary, hcell]
        exact .refused _
      | operator op =>
        cases op with
        | add | sub => exact .refused _
        | mul | div => exact leaf_agrees hi none nofun
      | _ => exact leaf_agrees hi none nofun
  | succ budget ih =>
    intro ts i hi
    have hcell := getElem?_of_drop hi
    rw [unary, signed, hcell]
    cases ts with
    | nil =>
      rw [Parser.unary]
      simp only [first, Cell.sign?, primary, hcell]
      exact .refused _
    | cons token rest =>
      have hrest := drop_of_drop_cons hi
      obtain ⟨lexeme, position⟩ := token
      cases lexeme with
      | openParen =>
        simp only [first, Cell.sign?, primary, hcell, Parser.unary]
        rcases (follows_sum ih hrest).elim with ⟨e, hx, hy⟩ | ⟨inner, innerAt, hx, hy, hview⟩
        · simp only [hx, hy]
          exact .refused e
        · simp only [hx, hy]
          exact closed_agrees hview _
      | operator op =>
        cases hsign : Parser.sign? op with
        | none =>
          simp only [first, Cell.sign?, hsign, Parser.unary]
          exact leaf_agrees hi _ nofun
        | some s =>
          simp only [first, Cell.sign?, hsign, Parser.unary]
          rcases (ih hrest).elim with ⟨e, hx, hy⟩ | ⟨p, r, hx, hy, hview⟩
          · simp only [hx, hy]
            exact .refused e
          · obtain ⟨hexpr, hheight, hnext⟩ := r.of_view hview
            simp only [hx, hy]
            exact .read (by rw [Read.view, viewParsed, hexpr, hheight, hnext])
      | _ => exact leaf_agrees hi _ nofun

end

/-- **The tape is not left.** On the tape of any tokens, the reader ends as it does on their list,
in a tree or a refusal. -/
theorem whole_laid [Scalar α] (stop : Nat) (ts : List Token) :
    whole (α := α) (laid stop ts) = (Parser.whole stop ts).mapError .refused := by
  have hstart : (laid stop ts).drop 0 = laid stop ts := rfl
  rw [whole, getElem?_of_drop hstart, Parser.whole]
  cases ts with
  | nil => rfl
  | cons token rest =>
    rw [if_neg (List.cons_ne_nil _ _)]
    simp only [first]
    rcases (follows_sum (follows_unary (α := α) maxDepth) hstart).elim with
      ⟨e, hx, hy⟩ | ⟨p, r, hx, hy, hview⟩
    · simp only [hx, hy]
      rfl
    · obtain ⟨hexpr, hheight, hnext⟩ := r.of_view hview
      simp only [hx, hy, getElem?_of_drop hnext, hexpr]
      rcases p.rest with _ | ⟨⟨lexeme, position⟩, after⟩
      · rfl
      · cases lexeme <;> rfl

/-! ## Where a text is refused -/

/-- What is refused is at a cell of the tape. -/
def Located {β : Type} (tape : List Cell) (x : Except Halt β) : Prop :=
  ∀ e, x = .error (.refused e) → ∃ cell ∈ tape, e.position = cell.position

section

variable {tape : List Cell} {operand : Rule α}

theorem Located.of_cell {β : Type} {i : Nat} {cell : Cell} (h : tape[i]? = some cell)
    (fault : ParseFault) :
    Located tape (.error (.refused ⟨fault, cell.position⟩) : Except Halt β) := by
  rintro e ⟨⟩
  exact ⟨cell, List.mem_of_getElem? h, rfl⟩

theorem located_ok {β : Type} (b : β) : Located tape (.ok b) := nofun

theorem located_outOfRange {β : Type} (i : Nat) :
    Located tape (.error (.outOfRange i) : Except Halt β) := nofun

/-- A failure that is handed on is where it was. -/
theorem Located.error {β γ : Type} {x : Except Halt β} {e : Halt} (h : Located tape x)
    (hx : x = .error e) : Located tape (.error e : Except Halt γ) := by
  rintro e' ⟨⟩
  exact h e' hx

theorem chain_located {ops : List Operator} (h : ∀ i, Located tape (operand i)) (left : Expr α)
    (height i : Nat) : Located tape (chain tape ops operand left height i) := by
  fun_induction chain tape ops operand left height i with
  | case1 => exact located_outOfRange _
  | case2 => exact located_ok _
  | case3 _ _ _ _ _ _ _ _ hfails => exact (h _).error hfails
  | case4 _ _ _ _ hcell _ _ _ _ => exact .of_cell hcell _
  | case5 _ _ _ _ _ _ _ _ _ _ _ _ hfails ih => exact ih.error hfails
  | case6 => exact located_ok _

theorem operation_located {ops : List Operator} (h : ∀ i, Located tape (operand i)) (i : Nat) :
    Located tape (operation tape ops operand i) := by
  rw [operation]
  split
  · rename_i hfails
    exact (h i).error hfails
  · split
    · rename_i hfails
      exact (chain_located h _ _ _).error hfails
    · exact located_ok _

theorem sum_located (h : ∀ i, Located tape (operand i)) (i : Nat) :
    Located tape (sum tape operand i) :=
  operation_located (operation_located h) i

theorem closed_located {i : Nat} (inner : Read α (i + 2)) : Located tape (closed tape i inner) := by
  rw [closed]
  split
  · exact located_outOfRange _
  · rename_i hcell
    split
    · exact located_ok _
    · exact .of_cell hcell _

variable [Scalar α] {nested : Option (Rule α)}

theorem position_of_leaf {token : Token} {rest : List Token} {e : ParseError}
    (h : Parser.leaf (α := α) token rest = .error e) : e.position = token.position := by
  rw [Parser.leaf] at h
  split at h
  · cases h
  · cases h
  · cases h
    rfl

theorem primary_located (h : ∀ rule ∈ nested, ∀ i, Located tape (rule i)) (i : Nat) :
    Located tape (primary tape nested i) := by
  rw [primary]
  split
  · exact located_outOfRange _
  · rename_i cell hcell
    split
    · exact .of_cell hcell _
    · split
      · exact .of_cell hcell _
      · split
        · rename_i hfails
          exact (sum_located (h _ rfl) _).error hfails
        · exact closed_located _
    · split
      · rename_i hfails
        rintro e' ⟨⟩
        exact ⟨cell, List.mem_of_getElem? hcell, position_of_leaf hfails⟩
      · exact located_ok _

theorem signed_located (h : ∀ rule ∈ nested, ∀ i, Located tape (rule i)) (i : Nat) :
    Located tape (signed tape nested i) := by
  rw [signed]
  split
  · exact located_outOfRange _
  · rename_i cell hcell
    split
    · exact primary_located h i
    · split
      · exact .of_cell hcell _
      · split
        · rename_i hfails
          exact (h _ rfl _).error hfails
        · exact located_ok _

theorem unary_located (budget i : Nat) : Located tape (unary (α := α) tape budget i) := by
  induction budget generalizing i with
  | zero => exact signed_located (fun _ hrule => absurd hrule (Option.not_mem_none _)) i
  | succ budget ih =>
    refine signed_located (fun rule hrule => ?_) i
    obtain rfl := Option.some.inj hrule
    exact ih

theorem whole_located : Located tape (whole (α := α) tape) := by
  rw [whole]
  split
  · exact located_outOfRange _
  · rename_i hfirst
    split
    · exact .of_cell hfirst _
    · split
      · rename_i hfails
        exact (sum_located (unary_located maxDepth) 0).error hfails
      · split
        · exact located_outOfRange _
        · rename_i hcell
          split
          · exact located_ok _
          · exact .of_cell hcell _
          · exact .of_cell hcell _

end

end FormulaGraph.Tape
