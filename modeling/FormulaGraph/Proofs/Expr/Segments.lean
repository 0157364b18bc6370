import FormulaGraph.Proofs.Except
import FormulaGraph.Proofs.Expr.Spelling
import Mathlib.Data.List.TakeWhile
/-!
# Tokens as segments of a text

A text that is split into tokens consists of blanks and lexemes in turn, each lexeme spelled as its
kind demands and going on as far as it can (`Segments`). The reader of tokens goes by this relation
and by nothing else: `scan_eq_ok_iff` has it in both directions. So where the tokens of a text
stand, what is between them, and what they are when the text is written anew, is all read off the
relation, by an induction that goes through the text as the reader does.

* `tokenize_eq_ok_iff`: the tokens of a text are its only division into segments.
* `lexes_joined`: lexemes with blanks between them are a text of these segments.
* `tokenize_segmentation`: the positions, the slices, the blanks and the boundaries of tokens, and
  that the tokens of their own texts are the same.
-/
namespace FormulaGraph

namespace Lexeme

theorem text_pos {l : Lexeme} (h : l.Spelled) : 0 < l.text.length := by
  cases l with
  | number run => exact List.length_pos_iff.2 h.1
  | name run =>
    obtain ⟨p, ps, hrun, -, -⟩ := h
    exact List.length_pos_iff.2 (by simp [text, hrun])
  | operator op => exact Nat.one_pos
  | openParen => exact Nat.one_pos
  | closeParen => exact Nat.one_pos

theorem endsBefore_nil (l : Lexeme) : l.EndsBefore [] := by
  cases l with
  | number run => exact fun _ => nofun
  | name run => exact fun _ => nofun
  | _ => trivial

/-- A literal that is not a lone point has a digit, as it has no second point. -/
theorem exists_digit {run : Text} (h : (Lexeme.number run).Spelled) :
    ∃ p ∈ run.points, p.holds Char.isDigit = true := by
  obtain ⟨hne, hchars, hliteral⟩ := h
  by_contra hnone
  have hpoint : ∀ p ∈ run.points, p = .char '.' := by
    intro p hp
    have hnumber := hchars p hp
    cases p with
    | half d => cases hnumber
    | char c =>
      have hdigit : ¬c.isDigit = true := fun hc => hnone ⟨_, hp, hc⟩
      have hc : c = '.' := by simpa [CodePoint.holds, Token.isNumberChar, hdigit] using hnumber
      rw [hc]
  have hall : run.points = List.replicate run.points.length (.char '.') :=
    List.eq_replicate_of_mem hpoint
  rw [Token.isLiteral, Bool.and_eq_true, decide_eq_true_eq, bne_iff_ne] at hliteral
  obtain ⟨hcount, hlone⟩ := hliteral
  rw [hall, List.count_replicate_self] at hcount
  have hone : run.points.length = 1 := Nat.le_antisymm hcount (List.length_pos_iff.2 hne)
  rw [hone] at hall
  exact hlone hall

end Lexeme

namespace Token

/-- The position behind the last character. -/
def stop (t : Token) : Nat := t.position + t.text.length

theorem holds_charOfOperator {p : CodePoint} {op : Operator}
    (h : p.char?.bind Operator.ofChar? = some op) : p = .char op.symbol := by
  cases p with
  | half d => cases h
  | char c =>
    have hop : Operator.ofChar? c = some op := h
    unfold Operator.ofChar? at hop
    split at hop
    · cases hop
      rfl
    · cases hop
      rfl
    · cases hop
      rfl
    · cases hop
      rfl
    · cases hop

theorem holds_head_dropWhile {k : Char → Bool} {rest : List CodePoint} {q : CodePoint}
    (h : q ∈ (rest.dropWhile (·.holds k)).head?) : q.holds k = false := by
  have hhead := List.head?_dropWhile_not (·.holds k) rest
  rw [h] at hhead
  simpa using hhead

/-- The text `ps`, of which the first character stands at `position`, is made of blanks and the
tokens `ts`. -/
inductive Segments : Nat → List Token → List CodePoint → Prop where
  | nil (position : Nat) : Segments position [] []
  | blank {position : Nat} {p : CodePoint} {ts : List Token} {rest : List CodePoint}
    (hp : p.holds Text.isBlank = true) (h : Segments (position + 1) ts rest) :
    Segments position ts (p :: rest)
  | token {position : Nat} {l : Lexeme} {ts : List Token} {rest : List CodePoint}
    (hspelled : l.Spelled) (hends : l.EndsBefore rest)
    (h : Segments (position + l.text.length) ts rest) :
    Segments position (⟨l, position⟩ :: ts) (l.text.points ++ rest)

/-! ## The reader goes by segments -/

theorem segments_of_scan {position : Nat} {ps : List CodePoint} {ts : List Token}
    (h : scan position ps = .ok ts) : Segments position ts ps := by
  fun_induction scan position ps generalizing ts with
  | case1 position =>
    cases h
    exact .nil position
  | case2 position p rest hblank ih => exact .blank hblank (ih h)
  | case3 => cases h
  | case4 => cases h
  | case5 position p rest _ hp run after hliteral hafter =>
    rename_i ih
    obtain ⟨ts, hts, rfl⟩ := ok_of_map h
    have hspelled : (Lexeme.number ⟨run⟩).Spelled := by
      refine ⟨List.cons_ne_nil _ _, List.forall_mem_cons.2 ⟨hp, fun q hq => ?_⟩, by
        simpa using hliteral⟩
      exact List.mem_takeWhile_imp hq
    have hends : (Lexeme.number ⟨run⟩).EndsBefore after := by
      intro q hq
      refine ⟨?_, ?_⟩
      · exact holds_head_dropWhile hq
      · simpa using Option.filter_eq_none_iff.1 hafter q hq
    have hsplit : p :: rest = run ++ after := by simp [run, after]
    rw [hsplit]
    exact .token hspelled hends (ih hts)
  | case6 position p rest _ _ hp run after =>
    rename_i ih
    obtain ⟨ts, hts, rfl⟩ := ok_of_map h
    have hspelled : (Lexeme.name ⟨run⟩).Spelled :=
      ⟨p, _, rfl, hp, fun q hq => List.mem_takeWhile_imp hq⟩
    have hends : (Lexeme.name ⟨run⟩).EndsBefore after := fun q hq => holds_head_dropWhile hq
    have hsplit : p :: rest = run ++ after := by simp [run, after]
    rw [hsplit]
    exact .token hspelled hends (ih hts)
  | case7 position p rest _ _ _ op hop ih =>
    obtain ⟨ts, hts, rfl⟩ := ok_of_map h
    obtain rfl := holds_charOfOperator hop
    exact .token (l := .operator op) trivial trivial (ih hts)
  | case8 position rest _ _ _ _ ih =>
    obtain ⟨ts, hts, rfl⟩ := ok_of_map h
    exact .token (l := .openParen) trivial trivial (ih hts)
  | case9 position rest _ _ _ _ _ ih =>
    obtain ⟨ts, hts, rfl⟩ := ok_of_map h
    exact .token (l := .closeParen) trivial trivial (ih hts)
  | case10 => cases h

theorem scan_of_segments {position : Nat} {ps : List CodePoint} {ts : List Token}
    (h : Segments position ts ps) : scan position ps = .ok ts := by
  induction h with
  | nil position => rw [scan]
  | blank hp _ ih => rw [scan_blank hp, ih]
  | token hspelled hends _ ih => rw [scan_lexeme hspelled hends, ih, Except.map]

theorem scan_eq_ok_iff {position : Nat} {ps : List CodePoint} {ts : List Token} :
    scan position ps = .ok ts ↔ Segments position ts ps :=
  ⟨segments_of_scan, scan_of_segments⟩

/-! ## Where the tokens stand -/

namespace Segments

variable {position : Nat} {ps : List CodePoint} {ts : List Token}

/-- A token has its text where it stands, and ends there. -/
theorem exists_of_mem (h : Segments position ts ps) {t : Token} (ht : t ∈ ts) :
    ∃ before rest, ps = before ++ (t.text.points ++ rest) ∧
      t.position = position + before.length ∧ t.lexeme.Spelled ∧ t.lexeme.EndsBefore rest := by
  induction h with
  | nil => cases ht
  | @blank position p _ _ hp _ ih =>
    obtain ⟨before, rest, rfl, hposition, hlexeme⟩ := ih ht
    refine ⟨p :: before, rest, rfl, ?_, hlexeme⟩
    rw [hposition, List.length_cons]
    omega
  | @token position l _ after hspelled hends _ ih =>
    rcases List.mem_cons.1 ht with rfl | ht
    · exact ⟨[], after, rfl, rfl, hspelled, hends⟩
    · obtain ⟨before, rest, rfl, hposition, hlexeme⟩ := ih ht
      refine ⟨l.text.points ++ before, rest, (List.append_assoc _ _ _).symm, ?_, hlexeme⟩
      rw [hposition, List.length_append, Text.length]
      omega

theorem position_le (h : Segments position ts ps) {t : Token} (ht : t ∈ ts) :
    position ≤ t.position := by
  obtain ⟨before, -, -, hposition, -⟩ := h.exists_of_mem ht
  omega

theorem position_lt_stop (h : Segments position ts ps) {t : Token} (ht : t ∈ ts) :
    t.position < t.stop := by
  obtain ⟨-, -, -, -, hspelled, -⟩ := h.exists_of_mem ht
  exact Nat.lt_add_of_pos_right (Lexeme.text_pos hspelled)

theorem stop_le (h : Segments position ts ps) {t : Token} (ht : t ∈ ts) :
    t.stop ≤ position + ps.length := by
  obtain ⟨before, rest, rfl, hposition, -, -⟩ := h.exists_of_mem ht
  rw [stop, hposition, List.length_append, List.length_append, Text.length]
  omega

/-- A token ends where the next begins, or before. -/
theorem pairwise (h : Segments position ts ps) :
    ts.Pairwise fun t u => t.stop ≤ u.position := by
  induction h with
  | nil => exact .nil
  | blank _ _ ih => exact ih
  | token _ _ hrest ih => exact .cons (fun _ hu => hrest.position_le hu) ih

/-- What belongs to no token is blank. -/
theorem blank_of_outside (h : Segments position ts ps) {k : Nat} {p : CodePoint}
    (hk : ps[k]? = some p)
    (hout : ∀ t ∈ ts, ¬(t.position ≤ position + k ∧ position + k < t.stop)) :
    p.holds Text.isBlank = true := by
  induction h generalizing k with
  | nil => cases hk
  | @blank position q _ _ hq _ ih =>
    cases k with
    | zero =>
      cases hk
      exact hq
    | succ k =>
      refine ih hk fun t ht => ?_
      have hnone := hout t ht
      rwa [Nat.add_right_comm, Nat.add_assoc]
  | @token position l _ after _ _ _ ih =>
    obtain ⟨hfirst, hrest⟩ := List.forall_mem_cons.1 hout
    have hbehind : l.text.points.length ≤ k := by
      simp only [stop, Token.text, Text.length] at hfirst
      omega
    rw [List.getElem?_append_right hbehind] at hk
    refine ih hk fun t ht => ?_
    have hnone := hrest t ht
    simp only [Text.length] at hnone ⊢
    omega

end Segments

end Token

/-- The tokens of a text are its only division into segments. -/
theorem tokenize_eq_ok_iff {source : Text} {ts : List Token} :
    tokenize source = .ok ts ↔ Token.Segments 0 ts source.points :=
  Token.scan_eq_ok_iff

/-! ## Texts of lexemes -/

/-- Wherever the text begins, its segments are these lexemes. -/
def Lexes (ls : List Lexeme) (ps : List CodePoint) : Prop :=
  ∀ position, ∃ ts, Token.Segments position ts ps ∧ ts.map (·.lexeme) = ls

theorem lexes_nil : Lexes [] [] := fun position => ⟨[], .nil position, rfl⟩

namespace Lexes

variable {ls : List Lexeme} {ps : List CodePoint}

theorem blank (h : Lexes ls ps) : Lexes ls (.char ' ' :: ps) := by
  intro position
  obtain ⟨ts, hts, hlexemes⟩ := h (position + 1)
  exact ⟨ts, .blank (by decide) hts, hlexemes⟩

theorem cons {l : Lexeme} (hspelled : l.Spelled) (hends : l.EndsBefore ps) (h : Lexes ls ps) :
    Lexes (l :: ls) (l.text.points ++ ps) := by
  intro position
  obtain ⟨ts, hts, hlexemes⟩ := h (position + l.text.length)
  exact ⟨⟨l, position⟩ :: ts, .token hspelled hends hts, congrArg (l :: ·) hlexemes⟩

end Lexes

/-- Lexemes with blanks between them are a text of these segments. -/
theorem lexes_joined {ls : List Lexeme} (h : ∀ l ∈ ls, l.Spelled) :
    Lexes ls (Text.joined " " (ls.map (·.text))).points := by
  induction ls with
  | nil => exact lexes_nil
  | cons l ls ih =>
    obtain ⟨hl, hls⟩ := List.forall_mem_cons.1 h
    cases ls with
    | nil =>
      have hone : (Text.joined " " ([l].map (·.text))).points = l.text.points ++ [] := by
        simp [Text.joined]
      rw [hone]
      exact lexes_nil.cons hl l.endsBefore_nil
    | cons next ls =>
      have hmore : (Text.joined " " ((l :: next :: ls).map (·.text))).points =
          l.text.points ++ (.char ' ' :: (Text.joined " " ((next :: ls).map (·.text))).points) := by
        simp only [Text.joined, List.map_cons, List.intercalate_cons_cons, List.append_assoc]
        rfl
      rw [hmore]
      exact (ih hls).blank.cons hl (l.endsBefore_blank _)

/-! ## The tokens of a text -/

/-- Where the tokens `ts` stand in `source`. The end of the text stands behind them all, at
`source.length`. -/
structure IsSegmentation (source : Text) (ts : List Token) : Prop where
  increasing : (ts.map (·.position) ++ [source.length]).Pairwise (· < ·)
  disjoint : ts.Pairwise fun t u => t.stop ≤ u.position
  slice : ∀ t ∈ ts, source.points.extract t.position t.stop = t.text.points
  /-- What is outside of the tokens is blank. -/
  blank : ∀ k p, source.points[k]? = some p → (∀ t ∈ ts, ¬(t.position ≤ k ∧ k < t.stop)) →
    p.holds Text.isBlank = true
  spelled : ∀ t ∈ ts, t.lexeme.Spelled
  /-- No name or literal could go on behind its end. -/
  maximal : ∀ t ∈ ts, t.lexeme.EndsBefore (source.points.drop t.stop)
  literal : ∀ t ∈ ts, ∀ run, t.lexeme = .number run →
    (∃ p ∈ run.points, p.holds Char.isDigit = true) ∧ run.points.count (.char '.') ≤ 1

theorem Token.Segments.isSegmentation {source : Text} {ts : List Token}
    (h : Token.Segments 0 ts source.points) : IsSegmentation source ts where
  increasing := by
    refine List.pairwise_append.2 ⟨?_, List.pairwise_singleton _ _, ?_⟩
    · refine List.pairwise_map.2 (h.pairwise.imp_of_mem fun {t u} ht _ htu => ?_)
      exact Nat.lt_of_lt_of_le (h.position_lt_stop ht) htu
    · simp only [List.mem_map, List.mem_singleton]
      rintro - ⟨t, ht, rfl⟩ - rfl
      have hle := h.stop_le ht
      rw [Nat.zero_add] at hle
      exact Nat.lt_of_lt_of_le (h.position_lt_stop ht) hle
  disjoint := h.pairwise
  slice t ht := by
    obtain ⟨before, rest, hps, hposition, -, -⟩ := h.exists_of_mem ht
    rw [List.extract_eq_take_drop, hps, Token.stop, hposition]
    simp [Text.length]
  blank k p hk hout := by
    refine h.blank_of_outside hk ?_
    simpa only [Nat.zero_add] using hout
  spelled t ht := by
    obtain ⟨-, -, -, -, hspelled, -⟩ := h.exists_of_mem ht
    exact hspelled
  maximal t ht := by
    obtain ⟨before, rest, hps, hposition, -, hends⟩ := h.exists_of_mem ht
    rw [hps, Token.stop, hposition]
    simpa [Text.length, ← List.drop_drop] using hends
  literal t ht run hrun := by
    obtain ⟨-, -, -, -, hspelled, -⟩ := h.exists_of_mem ht
    rw [hrun] at hspelled
    have hcount := (Bool.and_eq_true_iff.1 hspelled.2.2).1
    exact ⟨Lexeme.exists_digit hspelled, of_decide_eq_true hcount⟩

/-- **Segmentation.** The tokens of a text are slices of it, one behind the other, each as long as
it can be, and with blanks around them only. Their texts with a blank between each and the next have
tokens of the same kinds and texts. -/
theorem tokenize_segmentation {source : Text} {ts : List Token} (h : tokenize source = .ok ts) :
    IsSegmentation source ts ∧
      ∃ ts', tokenize (.joined " " (ts.map (·.text))) = .ok ts' ∧
        ts'.map (·.lexeme) = ts.map (·.lexeme) := by
  have hsegments := tokenize_eq_ok_iff.1 h
  have hspelled : ∀ l ∈ ts.map (·.lexeme), l.Spelled := by
    intro l hl
    obtain ⟨t, ht, rfl⟩ := List.mem_map.1 hl
    exact hsegments.isSegmentation.spelled t ht
  obtain ⟨ts', hts', hlexemes⟩ := lexes_joined hspelled 0
  refine ⟨hsegments.isSegmentation, ts', tokenize_eq_ok_iff.2 ?_, hlexemes⟩
  rwa [List.map_map] at hts'

/-- The tokens of a text that has blanks in two places and no need of them. -/
def crowded : List Token :=
  [⟨.name "a1", 0⟩, ⟨.operator .mul, 2⟩, ⟨.number ".5", 3⟩, ⟨.operator .add, 6⟩, ⟨.openParen, 8⟩,
    ⟨.name "_b", 9⟩]

theorem tokenize_segmentation_crowded :
    tokenize "a1*.5 +\t(_b" = .ok crowded ∧ IsSegmentation "a1*.5 +\t(_b" crowded ∧
      ∃ ts', tokenize "a1 * .5 + ( _b" = .ok ts' ∧ ts'.map (·.lexeme) = crowded.map (·.lexeme) := by
  have hread : tokenize "a1*.5 +\t(_b" = .ok crowded := by decide +kernel
  exact ⟨hread, tokenize_segmentation hread⟩

end FormulaGraph
