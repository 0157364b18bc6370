import Mathlib.Data.List.Chain
import FormulaGraph.Json.Reader
import FormulaGraph.Json.Writer
/-!
# Texts read back

What is written for a code point is read as that code point (`Escape.bodyReads`), whatever follows,
with one exception: two halves of a surrogate pair are written one after the other as the pair is,
and are read as one character. Where no text has such halves side by side (`Text.Apart`), texts are
read back.

* `bodyReads_points`: up to its closing quote a written text is read as its code points.
-/
namespace FormulaGraph

namespace Text

/-! ## Hexadecimal digits -/

theorem hexValue?_digitChar : ∀ d < 16, hexValue? (Nat.digitChar d) = some d := by decide

/-- The last of at least two digits. -/
theorem hex_succ {width : Nat} (hwidth : 0 < width) (n : Nat) :
    hex (width + 1) n = hex width (n / 16) ++ [Nat.digitChar (n % 16)] := by
  unfold hex
  by_cases hn : n < 16
  · obtain ⟨width, rfl⟩ := Nat.exists_eq_succ_of_ne_zero hwidth.ne'
    have hzero : n / 16 = 0 := Nat.div_eq_of_lt hn
    rw [hzero, Nat.mod_eq_of_lt hn, Nat.toDigits_of_lt_base hn, Nat.toDigits_zero]
    simp [List.replicate_succ']
  · rw [Nat.toDigits_of_base_le (by decide) (not_lt.1 hn)]
    simp

theorem hex_four {n : Nat} (hn : n < 0x10000) :
    hex 4 n = [Nat.digitChar (n / 16 / 16 / 16), Nat.digitChar (n / 16 / 16 % 16),
      Nat.digitChar (n / 16 % 16), Nat.digitChar (n % 16)] := by
  have hfirst : n / 16 / 16 / 16 < 16 := by omega
  have hone : hex 1 (n / 16 / 16 / 16) = [Nat.digitChar (n / 16 / 16 / 16)] := by
    simp [hex, Nat.toDigits_of_lt_base hfirst]
  rw [hex_succ (by decide), hex_succ (by decide), hex_succ (by decide), hone]
  rfl

end Text

namespace Json

/-- The code points of characters. -/
abbrev points (cs : List Char) : List CodePoint := cs.map .char

theorem length_hex {n : Nat} (hn : n < 0x10000) : (points (Text.hex 4 n)).length = 4 := by
  simp [points, Text.hex_four hn]

theorem drop_hex {n : Nat} (hn : n < 0x10000) (ps : List CodePoint) :
    (points (Text.hex 4 n) ++ ps).drop 4 = ps :=
  List.drop_left' (length_hex hn)

/-- An escape is a mark of two characters and four digits. -/
theorem unitEscape_append (n : Nat) (ps : List CodePoint) :
    points (unitEscape n) ++ ps = .char '\\' :: .char 'u' :: (points (Text.hex 4 n) ++ ps) := rfl

namespace Reader

theorem code?_hex {n : Nat} (hn : n < 0x10000) (rest : List CodePoint) :
    code? (points (Text.hex 4 n) ++ rest) = some n := by
  have hvalue :
      ((n / 16 / 16 / 16 * 16 + n / 16 / 16 % 16) * 16 + n / 16 % 16) * 16 + n % 16 = n := by
    omega
  rw [Text.hex_four hn]
  simp only [points, List.map_cons, List.map_nil, List.cons_append, List.nil_append, code?,
    Text.hexValue?_digitChar _ (show n / 16 / 16 / 16 < 16 by omega),
    Text.hexValue?_digitChar _ (Nat.mod_lt _ (by decide : 16 > 0)), Option.bind_eq_bind,
    Option.bind_some, hvalue]
  rfl

/-! ## Escapes -/

theorem lt_of_isHighSurrogate {n : Nat} (h : isHighSurrogate n = true) : n < 0x10000 := by
  simp only [isHighSurrogate, Bool.and_eq_true, decide_eq_true_eq] at h
  omega

theorem lt_of_isLowSurrogate {n : Nat} (h : isLowSurrogate n = true) : n < 0x10000 := by
  simp only [isLowSurrogate, Bool.and_eq_true, decide_eq_true_eq] at h
  omega

/-- What follows is not the escape of the second half of a surrogate pair. -/
def NoSecondHalf (ps : List CodePoint) : Prop :=
  ∀ rest, ps = .char '\\' :: .char 'u' :: rest →
    ∃ n, code? rest = some n ∧ isLowSurrogate n = false

/-- An escape stands for its unit, unless the two halves of a pair follow one another. -/
theorem codeEscape_unit {n : Nat} (hn : n < 0x10000) {rest : List CodePoint} (hrest : rest ≠ [])
    (halone : isHighSurrogate n = true → NoSecondHalf rest) (offset : Nat) :
    codeEscape (points (Text.hex 4 n) ++ rest) offset = .ok (.ofNat n, 4) := by
  have hpos : 0 < rest.length := List.length_pos_iff.2 hrest
  unfold codeEscape
  rw [if_neg (by rw [List.length_append, length_hex hn]; omega), code?_hex hn, drop_hex hn]
  dsimp only
  split
  · rename_i second
    split
    · rename_i hpair
      obtain ⟨low, hlow, hnot⟩ := halone hpair.1 second rfl
      simp [hlow, hnot]
    · rfl
  · rfl

/-- Two escapes one after the other stand for the character of a surrogate pair. -/
theorem codeEscape_pair {high low : Nat} (hhigh : isHighSurrogate high = true)
    (hlow : isLowSurrogate low = true) {rest : List CodePoint} (hrest : rest ≠ []) (offset : Nat) :
    codeEscape (points (Text.hex 4 high) ++ (points (unitEscape low) ++ rest)) offset =
      .ok (joinSurrogates high low, 10) := by
  have hh := lt_of_isHighSurrogate hhigh
  have hl := lt_of_isLowSurrogate hlow
  have hpos : 0 < rest.length := List.length_pos_iff.2 hrest
  have hsecond : 4 < (points (Text.hex 4 low) ++ rest).length := by
    rw [List.length_append, length_hex hl]
    omega
  have hfirst : ¬(points (Text.hex 4 high) ++ (points (unitEscape low) ++ rest)).length ≤ 4 := by
    rw [unitEscape_append, List.length_append, length_hex hh, List.length_cons]
    omega
  unfold codeEscape
  rw [if_neg hfirst, code?_hex hh, drop_hex hh, unitEscape_append]
  simp only [hhigh, hsecond, and_self, if_true, code?_hex hl, hlow]

/-! ## Bodies of texts -/

/-- What follows is read as the rest of a text with the code points, and its quote ends before
`rest`. -/
def BodyReads (start : Nat) (ps pts rest : List CodePoint) : Prop :=
  ∀ offset acc, ∃ r, textBody start offset acc ps = .ok r ∧ r.1.1 = acc.reverse ++ pts ∧
    r.1.2.rest = rest

section

variable {start : Nat} {ps pts rest : List CodePoint}

theorem bodyReads_quote : BodyReads start (.char '"' :: rest) [] rest := by
  intro offset acc
  rw [textBody]
  exact ⟨_, rfl, by simp, rfl⟩

theorem BodyReads.plain {p : CodePoint} (hquote : p ≠ .char '"') (hslash : p ≠ .char '\\')
    (hp : 0x1f < p.toNat) (h : BodyReads start ps pts rest) :
    BodyReads start (p :: ps) (p :: pts) rest := by
  intro offset acc
  obtain ⟨r, hr, hpts, hrest⟩ := h (offset + 1) (p :: acc)
  have hplain : textBody start offset acc (p :: ps) = _ :=
    textBody.eq_6 start offset acc p ps hquote (fun h _ => hslash h) (fun _ h _ => hslash h)
      fun _ _ h _ => hslash h
  rw [hplain, if_neg (by omega), hr]
  exact ⟨_, rfl, by simp [hpts], hrest⟩

theorem BodyReads.escaped {e c : Char} (he : escaped? e = some c)
    (h : BodyReads start ps pts rest) :
    BodyReads start (.char '\\' :: .char e :: ps) (.char c :: pts) rest := by
  have hu : e ≠ 'u' := by
    rintro rfl
    cases he
  intro offset acc
  obtain ⟨r, hr, hpts, hrest⟩ := h (offset + 2) (.char c :: acc)
  have hescape : textBody start offset acc (.char '\\' :: .char e :: ps) = _ :=
    textBody.eq_5 start offset acc (.char e) ps fun h => hu (CodePoint.char.inj h)
  rw [hescape]
  simp only [CodePoint.char?, Option.bind_some, he, hr]
  exact ⟨_, rfl, by simp [hpts], hrest⟩

theorem BodyReads.coded {p : CodePoint} {n : Nat}
    (hp : ∀ offset, codeEscape ps offset = .ok (p, n)) (h : BodyReads start (ps.drop n) pts rest) :
    BodyReads start (.char '\\' :: .char 'u' :: ps) (p :: pts) rest := by
  intro offset acc
  obtain ⟨r, hr, hpts, hrest⟩ := h (offset + 2 + n) (p :: acc)
  rw [textBody, hp]
  dsimp only
  rw [hr]
  exact ⟨_, rfl, by simp [hpts], hrest⟩

end

/-! ## Written code points -/

theorem ofNat_char {n : Nat} (h : n < CodePoint.firstHalf ∨ 0x10000 ≤ n) :
    CodePoint.ofNat n = .char (Char.ofNat n) :=
  dif_neg (by simp only [CodePoint.firstHalf] at h ⊢; omega)

/-- The units that a code point past the first 65536 is written with. -/
theorem surrogates {n : Nat} (hn : 0x10000 ≤ n) (hmax : n < 0x110000) :
    isHighSurrogate (0xd800 + (n - 0x10000) / 0x400) = true ∧
      isLowSurrogate (0xdc00 + (n - 0x10000) % 0x400) = true ∧
      joinSurrogates (0xd800 + (n - 0x10000) / 0x400) (0xdc00 + (n - 0x10000) % 0x400) =
        Char.ofNat n := by
  refine ⟨?_, ?_, congrArg Char.ofNat ?_⟩
  · simp only [isHighSurrogate, Bool.and_eq_true, decide_eq_true_eq]
    omega
  · simp only [isLowSurrogate, Bool.and_eq_true, decide_eq_true_eq]
    omega
  · omega

theorem toNat_lt (p : CodePoint) : p.toNat < 0x110000 := by
  cases p with
  | char c =>
    have h : c.toNat < 0xd800 ∨ 0xdfff < c.toNat ∧ c.toNat < 0x110000 := c.valid
    simp only [CodePoint.toNat]
    omega
  | half distance => simp only [CodePoint.toNat, CodePoint.firstHalf]; omega

/-- The four ways to write a code point. -/
inductive Escape (p : CodePoint) : List Char → Prop where
  | letter {e c : Char} (he : escaped? e = some c) (hp : p = .char c) : Escape p ['\\', e]
  | plain {c : Char} (hquote : c ≠ '"') (hslash : c ≠ '\\') (h : 0x1f < c.toNat)
    (hp : p = .char c) : Escape p [c]
  | unit {n : Nat} (hn : n < 0x10000) (hp : p = .ofNat n) : Escape p (unitEscape n)
  | pair {high low : Nat} (hhigh : isHighSurrogate high = true) (hlow : isLowSurrogate low = true)
    (hp : p = .char (joinSurrogates high low)) : Escape p (unitEscape high ++ unitEscape low)

theorem escape_escapePoint (p : CodePoint) : Escape p (escapePoint p) := by
  have hp : p = .ofNat p.toNat := (CodePoint.ofNat_toNat p).symm
  have hmax := toNat_lt p
  unfold escapePoint
  generalize p.toNat = n at hp hmax ⊢
  dsimp only
  split
  · rename_i hn
    rcases hn with rfl | rfl
    · exact .letter rfl hp
    · exact .letter rfl hp
  rename_i hmarks
  iterate 5
    split
    · rename_i hn
      subst hn
      exact .letter rfl hp
  split
  · rename_i hn
    have hchar : CodePoint.ofNat n = .char (Char.ofNat n) :=
      ofNat_char (.inl (Nat.lt_of_le_of_lt hn.2 (by decide)))
    have hvalue : (Char.ofNat n).toNat = n :=
      (congrArg CodePoint.toNat hchar).symm.trans (CodePoint.toNat_ofNat hmax)
    refine .plain (fun h => ?_) (fun h => ?_) (by omega) (hp.trans hchar)
    · exact hmarks (.inl (hvalue.symm.trans (congrArg Char.toNat h)))
    · exact hmarks (.inr (hvalue.symm.trans (congrArg Char.toNat h)))
  split
  · rename_i hn
    exact .unit hn hp
  · rename_i hn
    obtain ⟨hhigh, hlow, hjoin⟩ := surrogates (not_lt.1 hn) hmax
    exact .pair hhigh hlow (hjoin ▸ hp.trans (ofNat_char (.inr (not_lt.1 hn))))

/-- The units of a pair, one behind the other. -/
theorem pair_append (high low : Nat) (ps : List CodePoint) :
    points (unitEscape high ++ unitEscape low) ++ ps = .char '\\' :: .char 'u' ::
      (points (Text.hex 4 high) ++ (points (unitEscape low) ++ ps)) := by
  rw [points, List.map_append, List.append_assoc]
  rfl

/-- A code point that is no second half is not written like one. -/
theorem Escape.noSecondHalf {p : CodePoint} {written : List Char} (h : Escape p written)
    (hp : isLowSurrogate p.toNat = false) (ps : List CodePoint) :
    NoSecondHalf (points written ++ ps) := by
  intro rest heq
  cases h with
  | letter he =>
    cases heq
    cases he
  | plain _ hslash => exact absurd (CodePoint.char.inj (List.cons.inj heq).1) hslash
  | unit hn hunit =>
    rw [hunit, CodePoint.toNat_ofNat (by omega)] at hp
    rw [unitEscape_append] at heq
    cases heq
    exact ⟨_, code?_hex hn ps, hp⟩
  | @pair high low hhigh =>
    simp only [isHighSurrogate, Bool.and_eq_true, decide_eq_true_eq] at hhigh
    rw [pair_append] at heq
    cases heq
    refine ⟨high, code?_hex (by omega) _, ?_⟩
    simp only [isLowSurrogate, Bool.and_eq_false_iff, decide_eq_false_iff_not]
    omega

/-- What is written for a code point is read as the code point, unless it is half of a pair and the
other half follows. -/
theorem Escape.bodyReads {start : Nat} {p : CodePoint} {written : List Char}
    (h : Escape p written) {ps pts rest : List CodePoint}
    (halone : isHighSurrogate p.toNat = true → NoSecondHalf ps) (hps : ps ≠ [])
    (hbody : BodyReads start ps pts rest) :
    BodyReads start (points written ++ ps) (p :: pts) rest := by
  cases h with
  | letter he hp => exact hp ▸ hbody.escaped he
  | plain hquote hslash hc hp =>
    subst hp
    exact hbody.plain (fun h => hquote (CodePoint.char.inj h))
      (fun h => hslash (CodePoint.char.inj h)) hc
  | @unit n hn hp =>
    subst hp
    rw [CodePoint.toNat_ofNat (by omega)] at halone
    rw [unitEscape_append]
    refine BodyReads.coded (codeEscape_unit hn hps halone) ?_
    rwa [drop_hex hn]
  | @pair high low hhigh hlow hp =>
    subst hp
    have hh := lt_of_isHighSurrogate hhigh
    have hl := lt_of_isLowSurrogate hlow
    have hdrop : (points (Text.hex 4 high) ++ (points (unitEscape low) ++ ps)).drop 10 = ps := by
      rw [unitEscape_append]
      have hsix := congrArg (List.drop 6) (drop_hex hh (.char '\\' :: .char 'u' ::
        (points (Text.hex 4 low) ++ ps)))
      rw [List.drop_drop] at hsix
      exact hsix.trans (drop_hex hl ps)
    rw [pair_append]
    refine BodyReads.coded (codeEscape_pair hhigh hlow hps) ?_
    rwa [hdrop]

end Reader
end Json

open Json.Reader in
/-- The second half of a surrogate pair follows nowhere directly on the first. -/
def Text.Apart (t : Text) : Prop :=
  t.points.IsChain fun p q => isHighSurrogate p.toNat = true → isLowSurrogate q.toNat = false

instance (t : Text) : Decidable t.Apart :=
  inferInstanceAs (Decidable (t.points.IsChain _))

/-- No character is half of a pair. -/
theorem Text.apart_ofString (s : String) : (s : Text).Apart := by
  refine List.Pairwise.isChain (List.pairwise_of_forall_mem_list fun p hp q _ hhigh => ?_)
  obtain ⟨c, -, rfl⟩ := List.mem_map.1 hp
  have hvalid : c.toNat < 0xd800 ∨ 0xdfff < c.toNat ∧ c.toNat < 0x110000 := c.valid
  simp only [Json.Reader.isHighSurrogate, Bool.and_eq_true, decide_eq_true_eq] at hhigh
  simp only [CodePoint.toNat] at hhigh
  omega

namespace Json.Reader

/-- **A written text is read as itself** up to its closing quote, if no two halves of a pair stand
side by side. -/
theorem bodyReads_points (start : Nat) {t : Text} (h : t.Apart) (rest : List CodePoint) :
    BodyReads start (points (t.points.flatMap escapePoint) ++ .char '"' :: rest) t.points rest := by
  obtain ⟨ps⟩ := t
  induction ps with
  | nil => exact bodyReads_quote
  | cons p ps ih =>
    dsimp only at ih ⊢
    rw [List.flatMap_cons, points, List.map_append, List.append_assoc]
    refine (escape_escapePoint p).bodyReads (fun hhigh => ?_) (by simp) (ih h.tail)
    cases ps with
    | nil => intro rest' heq; cases heq
    | cons q ps =>
      have hlow := h.rel hhigh
      rw [List.flatMap_cons, List.map_append, List.append_assoc]
      exact (escape_escapePoint q).noSecondHalf hlow _

end Json.Reader

end FormulaGraph
