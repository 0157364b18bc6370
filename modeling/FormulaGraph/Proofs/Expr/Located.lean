import FormulaGraph.Number.Exact
import FormulaGraph.Proofs.Expr.Segments
import FormulaGraph.Proofs.Expr.Tape
/-!
# Refused texts say where

A text that is no expression is refused at one of its characters or at its end. The reader of tokens
refuses a character that it is at. The reader of expressions refuses a cell of the tape, which is a
token or the end.

* `Token.position_of_scan`: the refused character is one of the text.
* `parseExpression_located`: every refusal is in the text, and the tape is not left.
-/
namespace FormulaGraph

/-- The character at which tokens end is one of the text. -/
theorem Token.position_of_scan {position : Nat} {ps : List CodePoint} {e : ParseError}
    (h : scan position ps = .error e) :
    position ≤ e.position ∧ e.position < position + ps.length := by
  fun_induction scan position ps with
  | case1 => cases h
  | case2 position p rest _ ih =>
    obtain ⟨hle, hlt⟩ := ih h
    rw [List.length_cons]
    omega
  | case3 position p rest =>
    cases h
    rw [List.length_cons]
    exact ⟨Nat.le_refl _, Nat.lt_add_of_pos_right (Nat.succ_pos _)⟩
  | case4 position p rest _ _ run after _ q hq =>
    cases h
    have hsplit : p :: rest = run ++ after := by simp [run, after]
    obtain ⟨hhead, -⟩ := Option.filter_eq_some_iff.1 hq
    obtain ⟨behind, hafter⟩ := List.head?_eq_some_iff.1 hhead
    refine ⟨Nat.le_add_right _ _, ?_⟩
    rw [hsplit, List.length_append, hafter]
    exact Nat.add_lt_add_left (Nat.lt_add_of_pos_right (Nat.succ_pos _)) _
  | case5 position p rest _ _ run after _ _ ih =>
    have hsplit : p :: rest = run ++ after := by simp [run, after]
    obtain ⟨hle, hlt⟩ := ih (error_of_map h)
    rw [hsplit, List.length_append]
    omega
  | case6 position p rest _ _ _ run after ih =>
    have hsplit : p :: rest = run ++ after := by simp [run, after]
    obtain ⟨hle, hlt⟩ := ih (error_of_map h)
    rw [hsplit, List.length_append]
    omega
  | case7 _ _ _ _ _ _ _ _ ih =>
    obtain ⟨hle, hlt⟩ := ih (error_of_map h)
    rw [List.length_cons]
    omega
  | case8 _ _ _ _ _ _ ih =>
    obtain ⟨hle, hlt⟩ := ih (error_of_map h)
    rw [List.length_cons]
    omega
  | case9 _ _ _ _ _ _ _ ih =>
    obtain ⟨hle, hlt⟩ := ih (error_of_map h)
    rw [List.length_cons]
    omega
  | case10 =>
    cases h
    rw [List.length_cons]
    exact ⟨Nat.le_refl _, Nat.lt_add_of_pos_right (Nat.succ_pos _)⟩

theorem position_of_tokenize {source : Text} {e : ParseError} (h : tokenize source = .error e) :
    e.position < source.length := by
  obtain ⟨-, hlt⟩ := Token.position_of_scan h
  rwa [Nat.zero_add] at hlt

variable {α : Type} [Scalar α]

/-- The reader of an expression ends as it does on the tape of the tokens. -/
theorem whole_of_tokenize {source : Text} {ts : List Token} (h : tokenize source = .ok ts) :
    Tape.whole (Tape.laid source.length ts) =
      (parseExpression (α := α) source).mapError Tape.Halt.refused := by
  rw [parseExpression, h]
  exact Tape.whole_laid source.length ts

theorem position_of_cell {source : Text} {ts : List Token} (h : tokenize source = .ok ts)
    {cell : Tape.Cell} (hcell : cell ∈ Tape.laid source.length ts) :
    cell.position ≤ source.length := by
  have hsegments := tokenize_eq_ok_iff.1 h
  rcases List.mem_append.1 hcell with hcell | hcell
  · obtain ⟨t, ht, rfl⟩ := List.mem_map.1 hcell
    have hstop := hsegments.stop_le ht
    rw [Nat.zero_add] at hstop
    exact (hsegments.position_lt_stop ht).le.trans hstop
  · obtain rfl := List.mem_singleton.1 hcell
    exact Nat.le_refl _

theorem position_of_parseExpression {source : Text} {e : ParseError}
    (h : parseExpression (α := α) source = .error e) : e.position ≤ source.length := by
  cases htokens : tokenize source with
  | error e' =>
    rw [parseExpression, htokens] at h
    cases h
    exact (position_of_tokenize htokens).le
  | ok ts =>
    have hwhole := whole_of_tokenize (α := α) htokens
    rw [h] at hwhole
    obtain ⟨cell, hcell, hposition⟩ := Tape.whole_located e hwhole
    rw [hposition]
    exact position_of_cell htokens hcell

/-- **Refused texts say where, and the tape is not left.** What the reader of tokens or of
expressions refuses is at a character of the text or at its end. On the tape of any tokens, the
reader of expressions ends as it does on their list, so it asks for no cell behind the end. -/
theorem parseExpression_located (source : Text) :
    (∀ e, tokenize source = .error e → e.position ≤ source.length) ∧
    (∀ e, parseExpression (α := α) source = .error e → e.position ≤ source.length) ∧
    (∀ ts, tokenize source = .ok ts → Tape.whole (Tape.laid source.length ts) =
      (parseExpression (α := α) source).mapError Tape.Halt.refused) ∧
    ∀ stop ts, Tape.whole (Tape.laid stop ts) =
        (Parser.whole (α := α) stop ts).mapError Tape.Halt.refused ∧
      ∀ i, Tape.whole (α := α) (Tape.laid stop ts) ≠ .error (.outOfRange i) := by
  refine ⟨fun e h => (position_of_tokenize h).le, fun e => position_of_parseExpression,
    fun ts => whole_of_tokenize, fun stop ts => ⟨Tape.whole_laid stop ts, fun i hrange => ?_⟩⟩
  rw [Tape.whole_laid] at hrange
  cases h : Parser.whole (α := α) stop ts with
  | error e =>
    rw [h] at hrange
    cases hrange
  | ok expr =>
    rw [h] at hrange
    cases hrange

/-- A name behind a parenthesis that is not closed: what is missing is missing at the end. -/
theorem parseExpression_located_open :
    tokenize "(a" = .ok [⟨.openParen, 0⟩, ⟨.name "a", 1⟩] ∧
    parseExpression (α := Exact) "(a" = .error ⟨.missingClose, 2⟩ ∧ 2 ≤ Text.length "(a" ∧
    Tape.whole (α := Exact) (Tape.laid 2 [⟨.openParen, 0⟩, ⟨.name "a", 1⟩]) =
      .error (.refused ⟨.missingClose, 2⟩) ∧
    tokenize "a$" = .error ⟨.invalidCharacter "$", 1⟩ ∧ 1 ≤ Text.length "a$" := by
  have htokens : tokenize "(a" = .ok [⟨.openParen, 0⟩, ⟨.name "a", 1⟩] := by decide +kernel
  have hopen : parseExpression (α := Exact) "(a" = .error ⟨.missingClose, 2⟩ := by decide +kernel
  have hinvalid : tokenize "a$" = .error ⟨.invalidCharacter "$", 1⟩ := by decide +kernel
  obtain ⟨-, hparse, htape, -⟩ := parseExpression_located (α := Exact) "(a"
  obtain ⟨htokenize, -⟩ := parseExpression_located (α := Exact) "a$"
  have hwhole := htape _ htokens
  rw [hopen] at hwhole
  exact ⟨htokens, hopen, hparse _ hopen, hwhole, hinvalid, htokenize _ hinvalid⟩

end FormulaGraph
