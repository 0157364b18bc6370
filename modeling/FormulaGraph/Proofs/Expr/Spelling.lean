import FormulaGraph.Proofs.Expr.Parsing
/-!
# Spelling

Tokens are read by longest match. So the text of a name or a literal is read as one token where it
is followed by something that does not go on with it (`EndsBefore`), and a blank never does. Written
with a blank behind each, lexemes are therefore read as what they are, whichever they are.

* `Token.scan_lexeme`: a lexeme that is spelled as its kind demands is read back.
* `tokenize_spaced`: and so is a sequence of them.
* `exists_parseExpression_eq_ok`: so every derivation within the limits is that of a text.
-/
namespace FormulaGraph

theorem CodePoint.holds_eq_false {p q : Char → Bool} (h : ∀ c, p c = true → q c = false)
    {x : CodePoint} (hx : x.holds p = true) : x.holds q = false := by
  cases x with
  | char c => exact h c hx
  | half d => rfl

namespace Lexeme

/-- The text of a name or a literal is one. -/
def Spelled : Lexeme → Prop
  | .number run => run.points ≠ [] ∧ (∀ p ∈ run.points, p.holds Token.isNumberChar = true) ∧
      Token.isLiteral run.points = true
  | .name run => ∃ p ps, run.points = p :: ps ∧ p.holds Token.isNameStart = true ∧
      ∀ q ∈ ps, q.holds Token.isNameChar = true
  | .operator _ | .openParen | .closeParen => True

/-- What follows does not go on with the lexeme. -/
def EndsBefore (rest : List CodePoint) : Lexeme → Prop
  | .number _ => ∀ p ∈ rest.head?,
      p.holds Token.isNumberChar = false ∧ p.holds Token.isNameChar = false
  | .name _ => ∀ p ∈ rest.head?, p.holds Token.isNameChar = false
  | .operator _ | .openParen | .closeParen => True

theorem endsBefore_blank (l : Lexeme) (rest : List CodePoint) :
    l.EndsBefore (.char ' ' :: rest) := by
  cases l with
  | number run =>
    rintro p ⟨⟩
    decide
  | name run =>
    rintro p ⟨⟩
    decide
  | _ => trivial

end Lexeme

namespace Token

/-! ## Kinds of characters -/

theorem toNat_of_isNumberChar {c : Char} (h : isNumberChar c = true) :
    46 ≤ c.toNat ∧ c.toNat ≤ 57 := by
  rcases Bool.or_eq_true_iff.1 h with hdigit | hpoint
  · have hrange := Char.isDigit_iff_toNat.1 hdigit
    simp only [Char.reduceToNat] at hrange
    omega
  · obtain rfl := eq_of_beq hpoint
    decide

theorem toNat_of_isNameStart {c : Char} (h : isNameStart c = true) :
    65 ≤ c.toNat ∧ c.toNat ≤ 122 := by
  rcases Bool.or_eq_true_iff.1 h with hline | halpha
  · obtain rfl := eq_of_beq hline
    decide
  · rcases Bool.or_eq_true_iff.1 halpha with hupper | hlower
    · have hrange : 65 ≤ c.toNat ∧ c.toNat ≤ 90 :=
        (of_decide_eq_true hupper).imp UInt32.le_iff_toNat_le.1 UInt32.le_iff_toNat_le.1
      omega
    · obtain ⟨hlow, hhigh⟩ := Bool.and_eq_true_iff.1 hlower
      have hrange : 97 ≤ c.toNat ∧ c.toNat ≤ 122 :=
        ⟨UInt32.le_iff_toNat_le.1 (of_decide_eq_true hlow),
          UInt32.le_iff_toNat_le.1 (of_decide_eq_true hhigh)⟩
      omega

/-- The blanks of ASCII come before its visible characters. -/
theorem isBlank_of_visible {c : Char} (h : 0x21 ≤ c.toNat ∧ c.toNat ≤ 0x7e) :
    Text.isBlank c = false := by
  simp only [Text.isBlank, Text.isPadding, Bool.or_eq_false_iff, Bool.and_eq_false_iff,
    decide_eq_false_iff_not, beq_eq_false_iff_ne]
  omega

theorem isBlank_of_isNumberChar {c : Char} (h : isNumberChar c = true) :
    Text.isBlank c = false := by
  have hrange := toNat_of_isNumberChar h
  exact isBlank_of_visible (by omega)

theorem isBlank_of_isNameStart {c : Char} (h : isNameStart c = true) : Text.isBlank c = false := by
  have hrange := toNat_of_isNameStart h
  exact isBlank_of_visible (by omega)

theorem isNumberChar_of_isNameStart {c : Char} (h : isNameStart c = true) :
    isNumberChar c = false := by
  have hstart := toNat_of_isNameStart h
  refine Bool.eq_false_iff.2 fun hnumber => ?_
  have hrange := toNat_of_isNumberChar hnumber
  omega

/-! ## Reading a lexeme back -/

theorem takeWhile_run {p : CodePoint → Bool} {run rest : List CodePoint}
    (hrun : ∀ x ∈ run, p x = true) (hrest : ∀ x ∈ rest.head?, p x = false) :
    (run ++ rest).takeWhile p = run ∧ (run ++ rest).dropWhile p = rest := by
  rw [List.takeWhile_append_of_pos hrun, List.dropWhile_append_of_pos hrun]
  cases rest with
  | nil => simp
  | cons x rest =>
    have hx : ¬p x = true := by simp [hrest x rfl]
    rw [List.takeWhile_cons_of_neg hx, List.dropWhile_cons_of_neg hx, List.append_nil]
    exact ⟨rfl, rfl⟩

theorem scan_blank {p : CodePoint} (hp : p.holds Text.isBlank = true) (position : Nat)
    (rest : List CodePoint) : scan position (p :: rest) = scan (position + 1) rest := by
  rw [scan, if_pos hp]

theorem scan_number {run : Text} (hspelled : (Lexeme.number run).Spelled) {rest : List CodePoint}
    (hends : (Lexeme.number run).EndsBefore rest) (position : Nat) :
    scan position (run.points ++ rest) =
      (scan (position + run.length) rest).map (⟨.number run, position⟩ :: ·) := by
  obtain ⟨points⟩ := run
  obtain ⟨hne, hchars, hliteral⟩ := hspelled
  obtain ⟨p, ps, rfl⟩ := List.exists_cons_of_ne_nil hne
  obtain ⟨hp, hps⟩ := List.forall_mem_cons.1 hchars
  have hblank : p.holds Text.isBlank = false :=
    CodePoint.holds_eq_false (fun _ => isBlank_of_isNumberChar) hp
  obtain ⟨htake, hdrop⟩ := takeWhile_run hps fun x hx => (hends x hx).1
  have hafter : rest.head?.filter (·.holds isNameChar) = none := by
    simp only [Option.filter_eq_none_iff, Bool.not_eq_true]
    exact fun x hx => (hends x hx).2
  rw [List.cons_append, scan]
  simp only [hblank, hp, htake, hdrop, hliteral, hafter, Bool.false_eq_true, if_false, if_true,
    Bool.not_true]
  rfl

theorem scan_name {run : Text} (hspelled : (Lexeme.name run).Spelled) {rest : List CodePoint}
    (hends : (Lexeme.name run).EndsBefore rest) (position : Nat) :
    scan position (run.points ++ rest) =
      (scan (position + run.length) rest).map (⟨.name run, position⟩ :: ·) := by
  obtain ⟨points⟩ := run
  obtain ⟨p, ps, rfl, hp, hps⟩ := hspelled
  have hblank : p.holds Text.isBlank = false :=
    CodePoint.holds_eq_false (fun _ => isBlank_of_isNameStart) hp
  have hnumber : p.holds isNumberChar = false :=
    CodePoint.holds_eq_false (fun _ => isNumberChar_of_isNameStart) hp
  obtain ⟨htake, hdrop⟩ := takeWhile_run hps hends
  rw [List.cons_append, scan]
  simp only [hblank, hnumber, hp, htake, hdrop, Bool.false_eq_true, if_false, if_true]
  rfl

theorem scan_operator (op : Operator) (position : Nat) (rest : List CodePoint) :
    scan position (.char op.symbol :: rest) =
      (scan (position + 1) rest).map (⟨.operator op, position⟩ :: ·) := by
  rw [scan]
  cases op <;> rfl

theorem scan_openParen (position : Nat) (rest : List CodePoint) :
    scan position (.char '(' :: rest) =
      (scan (position + 1) rest).map (⟨.openParen, position⟩ :: ·) := by
  rw [scan]
  rfl

theorem scan_closeParen (position : Nat) (rest : List CodePoint) :
    scan position (.char ')' :: rest) =
      (scan (position + 1) rest).map (⟨.closeParen, position⟩ :: ·) := by
  rw [scan]
  rfl

/-- A lexeme is read back where nothing follows that goes on with it. -/
theorem scan_lexeme {l : Lexeme} (hspelled : l.Spelled) {rest : List CodePoint}
    (hends : l.EndsBefore rest) (position : Nat) :
    scan position (l.text.points ++ rest) =
      (scan (position + l.text.length) rest).map (⟨l, position⟩ :: ·) := by
  cases l with
  | number run => exact scan_number hspelled hends position
  | name run => exact scan_name hspelled hends position
  | operator op => exact scan_operator op position rest
  | openParen => exact scan_openParen position rest
  | closeParen => exact scan_closeParen position rest

end Token

/-- The text of lexemes, with a blank behind each. -/
def spaced (ls : List Lexeme) : Text := ⟨ls.flatMap fun l => l.text.points ++ [.char ' ']⟩

theorem scan_spaced {ls : List Lexeme} (h : ∀ l ∈ ls, l.Spelled) (position : Nat) :
    ∃ ts, Token.scan position (spaced ls).points = .ok ts ∧ ts.map (·.lexeme) = ls := by
  induction ls generalizing position with
  | nil => exact ⟨[], by simp [spaced, Token.scan], rfl⟩
  | cons l ls ih =>
    obtain ⟨hl, hls⟩ := List.forall_mem_cons.1 h
    obtain ⟨ts, hts, hlexemes⟩ := ih hls (position + l.text.length + 1)
    have hpoints : (spaced (l :: ls)).points =
        l.text.points ++ (.char ' ' :: (spaced ls).points) := by
      simp [spaced]
    refine ⟨⟨l, position⟩ :: ts, ?_, by rw [List.map_cons, hlexemes]⟩
    rw [hpoints, Token.scan_lexeme hl (l.endsBefore_blank _), Token.scan_blank (by decide), hts,
      Except.map]

theorem tokenize_spaced {ls : List Lexeme} (h : ∀ l ∈ ls, l.Spelled) :
    ∃ ts, tokenize (spaced ls) = .ok ts ∧ ts.map (·.lexeme) = ls :=
  scan_spaced h 0

open Grammar

variable {α : Type} [Scalar α]

/-- A derivation that the limits allow is that of a text. -/
theorem exists_parseExpression_eq_ok {d : Derivation (.chain .sum)}
    (hfits : Parser.Fits (α := α) maxDepth d) (hspelled : ∀ l ∈ d.yield, l.Spelled) :
    ∃ source, parseExpression source = .ok (d.tree : Expr α) := by
  obtain ⟨ts, hts, hlexemes⟩ := tokenize_spaced hspelled
  refine ⟨spaced d.yield, ?_⟩
  rw [parseExpression, hts]
  exact Parser.whole_eq_ok_iff.2 ⟨d, hlexemes.symm, rfl, hfits⟩

end FormulaGraph
