import FormulaGraph.Proofs.Expr.Spelling
import FormulaGraph.Proofs.Number.Doubles
import FormulaGraph.Proofs.Number.Shortest
/-!
# Doubles written without an exponent

A double from `1e-4` to below `1e16` is written as digits with a point among them (`Pointed`). The
decimals nearest to such doubles are in the same range, though the numbers nearest to the least one
are not: the least double is above `1e-4`, and its interval reaches below. What saves it is that
`1e-4` itself is its shortest decimal.

Two runs of digits with a point between them are a literal, and the literal is read as the number of
the digits and their places. That number is nearest to the double, so the double is read.

* `Pointed.literal_text`, `Pointed.spelled_text`: how digits with a point are read.
* `exists_positional_eq`: a layout with a point keeps the digits and their places.
* `literal_floatText`: a plain double is written as a literal that is read back.
-/
namespace FormulaGraph

open Binary64

/-! ## Digits and their value -/

theorem digitsValue_append (ds es : List Char) :
    Decimal.digitsValue (ds ++ es) = 10 ^ es.length * Decimal.digitsValue ds +
      Decimal.digitsValue es :=
  (Nat.ofDigitChars_append 0).trans Nat.ofDigitChars_eq_ofDigitChars_zero

theorem digitsValue_zeros (n : Nat) : Decimal.digitsValue (FloatStyle.zeros n) = 0 :=
  Nat.ofDigitChars_replicate_zero.trans (Nat.mul_zero _)

theorem digitsValue_toDigits (n : Nat) : Decimal.digitsValue (Nat.toDigits 10 n) = n :=
  Nat.ofDigitChars_ten_toDigits

theorem length_zeros (n : Nat) : (FloatStyle.zeros n).length = n := List.length_replicate

/-- All characters are digits. -/
def Digits (ds : List Char) : Prop := ∀ c ∈ ds, c.isDigit = true

theorem digits_toDigits (n : Nat) : Digits (Nat.toDigits 10 n) :=
  fun _ => Nat.isDigit_of_mem_toDigits (by decide) (by decide)

theorem digits_zeros (n : Nat) : Digits (FloatStyle.zeros n) := by
  intro c hc
  obtain rfl := List.eq_of_mem_replicate hc
  rfl

theorem Digits.append {ds es : List Char} (hds : Digits ds) (hes : Digits es) :
    Digits (ds ++ es) :=
  List.forall_mem_append.2 ⟨hds, hes⟩

theorem Digits.point_not_mem {ds : List Char} (hds : Digits ds) :
    CodePoint.char '.' ∉ ds.map .char := by
  intro hmem
  obtain ⟨c, hc, heq⟩ := List.mem_map.1 hmem
  cases heq
  exact absurd (hds _ hc) (by decide)

theorem Digits.isNumberChar {ds : List Char} (hds : Digits ds) :
    ∀ p ∈ ds.map CodePoint.char, p.holds Token.isNumberChar = true := by
  intro p hp
  obtain ⟨c, hc, rfl⟩ := List.mem_map.1 hp
  exact Bool.or_eq_true_iff.2 (.inl (hds c hc))

/-- Digits are read up to what is none. -/
theorem Digits.charsWhile_eq {ds : List Char} (hds : Digits ds) {rest : List CodePoint}
    (hrest : ∀ p ∈ rest.head?, p.holds Char.isDigit = false) :
    Text.charsWhile Char.isDigit (ds.map .char ++ rest) = ds := by
  induction ds with
  | nil =>
    cases rest with
    | nil => rfl
    | cons p rest =>
      cases p with
      | half d => rfl
      | char c => exact if_neg (Bool.eq_false_iff.1 (hrest _ rfl))
  | cons c ds ih =>
    obtain ⟨hc, hds⟩ := List.forall_mem_cons.1 hds
    rw [List.map_cons, List.cons_append, Text.charsWhile, if_pos hc, ih hds]

/-! ## Digits with a point -/

/-- Two runs of digits with a point between them, the first of them not empty. -/
structure Pointed where
  whole : List Char
  fraction : List Char
  whole_ne : whole ≠ []
  whole_digits : Digits whole
  fraction_digits : Digits fraction

namespace Pointed

def chars (p : Pointed) : List Char := p.whole ++ '.' :: p.fraction

def text (p : Pointed) : Text := .ofChars p.chars

def value (p : Pointed) : ℚ :=
  Decimal.digitsValue (p.whole ++ p.fraction) * 10 ^ (0 - (p.fraction.length : ℤ))

theorem points_text (p : Pointed) :
    p.text.points = p.whole.map .char ++ .char '.' :: p.fraction.map .char := by
  simp [text, chars, Text.ofChars]

/-- A literal is the number of its digits, with as many places as stand behind the point. -/
theorem literal_text {α : Type} [Scalar α] (p : Pointed) :
    (Grammar.literal p.text : α) = Scalar.ofDecimal
      ⟨false, Decimal.digitsValue (p.whole ++ p.fraction), 0 - (p.fraction.length : ℤ)⟩ := by
  have hwhole : Text.charsWhile Char.isDigit p.text.points = p.whole := by
    rw [points_text]
    exact p.whole_digits.charsWhile_eq (by rintro q ⟨⟩; rfl)
  have hfraction : Text.charsWhile Char.isDigit (p.text.points.drop (p.whole.length + 1)) =
      p.fraction := by
    rw [points_text, ← List.drop_drop, ← List.length_map CodePoint.char, List.drop_left]
    simpa using @Digits.charsWhile_eq p.fraction p.fraction_digits [] nofun
  simp only [Grammar.literal, hwhole, hfraction, Numeral.ofDigits]

theorem spelled_text (p : Pointed) : (Lexeme.number p.text).Spelled := by
  have hcount : p.text.points.count (.char '.') = 1 := by
    rw [points_text, List.count_append, List.count_cons_self,
      List.count_eq_zero.2 p.whole_digits.point_not_mem,
      List.count_eq_zero.2 p.fraction_digits.point_not_mem]
  refine ⟨by simp [points_text], ?_, ?_⟩
  · rw [points_text]
    exact List.forall_mem_append.2 ⟨p.whole_digits.isNumberChar,
      List.forall_mem_cons.2 ⟨rfl, p.fraction_digits.isNumberChar⟩⟩
  · obtain ⟨c, whole, hwhole⟩ := List.exists_cons_of_ne_nil p.whole_ne
    rw [Token.isLiteral, hcount, points_text, hwhole]
    simp

/-! ## The layout -/

/-- `0.` and the digits, with zeros before them. -/
def behind (n : Nat) {ds : List Char} (hds : Digits ds) : Pointed where
  whole := ['0']
  fraction := FloatStyle.zeros n ++ ds
  whole_ne := List.cons_ne_nil _ _
  whole_digits := digits_zeros 1
  fraction_digits := (digits_zeros n).append hds

/-- The digits with zeros behind them, and `.0`. -/
def before (n : Nat) {ds : List Char} (hne : ds ≠ []) (hds : Digits ds) : Pointed where
  whole := ds ++ FloatStyle.zeros n
  fraction := ['0']
  whole_ne := List.append_ne_nil_of_left_ne_nil hne _
  whole_digits := hds.append (digits_zeros n)
  fraction_digits := digits_zeros 1

/-- The digits with the point behind the first `n + 1` of them. -/
def among (n : Nat) {ds : List Char} (hne : ds ≠ []) (hds : Digits ds) : Pointed where
  whole := ds.take (n + 1)
  fraction := ds.drop (n + 1)
  whole_ne := by simp [hne]
  whole_digits c hc := hds c (List.mem_of_mem_take hc)
  fraction_digits c hc := hds c (List.mem_of_mem_drop hc)

variable {ds : List Char} (hne : ds ≠ []) (hds : Digits ds)

theorem value_behind (n : Nat) :
    (behind n hds).value = Decimal.digitsValue ds * 10 ^ (-(n : ℤ) - ds.length) := by
  have hdigits : Decimal.digitsValue (['0'] ++ (FloatStyle.zeros n ++ ds)) =
      Decimal.digitsValue ds := by
    rw [digitsValue_append, digitsValue_append, digitsValue_zeros]
    simp [Decimal.digitsValue]
  have hplace : 0 - ((FloatStyle.zeros n ++ ds).length : ℤ) = -(n : ℤ) - ds.length := by
    rw [List.length_append, length_zeros]
    omega
  simp only [value, behind, hdigits, hplace]

theorem value_before (n : Nat) :
    (before n hne hds).value = Decimal.digitsValue ds * 10 ^ (n : ℤ) := by
  have hdigits : Decimal.digitsValue (ds ++ FloatStyle.zeros n ++ ['0']) =
      Decimal.digitsValue ds * 10 ^ n * 10 := by
    rw [digitsValue_append, digitsValue_append, digitsValue_zeros, length_zeros]
    simp [Decimal.digitsValue, mul_comm]
  have hplace : (10 : ℚ) * 10 ^ (-1 : ℤ) = 1 := by norm_num
  simp only [value, before, hdigits, List.length_singleton]
  push_cast
  rw [mul_assoc, hplace, mul_one, zpow_natCast]

theorem value_among {n : Nat} (hn : n < ds.length) :
    (among n hne hds).value = Decimal.digitsValue ds * 10 ^ ((n : ℤ) + 1 - ds.length) := by
  have hplace : 0 - ((ds.drop (n + 1)).length : ℤ) = (n : ℤ) + 1 - ds.length := by
    rw [List.length_drop]
    omega
  simp only [value, among, List.take_append_drop, hplace]

end Pointed

/-- A layout with a point keeps the digits and their places. -/
theorem exists_positional_eq {ds : List Char} (hne : ds ≠ []) (hds : Digits ds) (point : ℤ) :
    ∃ p : Pointed, FloatStyle.positional ds point = p.chars ∧
      p.value = Decimal.digitsValue ds * 10 ^ (point - ds.length) := by
  unfold FloatStyle.positional
  split
  · rename_i hpoint
    refine ⟨.behind (-point).toNat hds, rfl, ?_⟩
    rw [Pointed.value_behind, Int.toNat_of_nonneg (by omega), neg_neg]
  · rename_i hpoint
    dsimp only
    split
    · rename_i hlength
      refine ⟨.before (point.toNat - ds.length) hne hds,
        by simp [Pointed.chars, Pointed.before], ?_⟩
      rw [Pointed.value_before, Nat.cast_sub hlength, Int.toNat_of_nonneg (by omega)]
    · rename_i hlength
      obtain ⟨n, hn⟩ : ∃ n, point.toNat = n + 1 := ⟨point.toNat - 1, by omega⟩
      rw [hn]
      refine ⟨.among n hne hds, rfl, ?_⟩
      rw [Pointed.value_among hne hds (by omega), show point = n + 1 by omega]

/-! ## Decimals of plain doubles -/

/-- The least plain double is written as the bound itself, which is below it. -/
theorem ofBinary_least : Shortest.ofBinary 0x1a36e2eb1c432d (-66) = ⟨1, -4⟩ := by decide +kernel

section

variable {m : Nat} {q : ℤ} (hc : Canonical m q) (hplain : Double.IsPlain m q)

include hc hplain

theorem le_value_ofBinary : 10 ^ (-4 : ℤ) ≤ (Shortest.ofBinary m q).value := by
  have hlow := (Shortest.rounds_ofBinary hc).low_le
  have hgap := (gap_bounds m q).2
  rcases hplain.least with hq | ⟨rfl, hm⟩
  · have hnormal : (2 : ℚ) ^ 52 ≤ m := by exact_mod_cast hc.normal.resolve_right (by omega)
    calc (10 : ℚ) ^ (-4 : ℤ) ≤ (2 ^ 52 - 1 / 2) * 2 ^ (-65 : ℤ) := by norm_num
      _ ≤ (2 ^ 52 - 1 / 2) * 2 ^ q :=
        mul_le_mul_of_nonneg_left (zpow_le_zpow_right₀ one_le_two (by omega)) (by norm_num)
      _ ≤ (m - gap m q) * 2 ^ q := mul_le_mul_of_nonneg_right (by linarith) (by positivity)
      _ ≤ (Shortest.ofBinary m q).value := hlow
  · rcases Nat.eq_or_lt_of_le hm with rfl | hlt
    · rw [ofBinary_least]
      norm_num [Shortest.value]
    · have hlt : (0x1a36e2eb1c432d : ℚ) + 1 ≤ m := by exact_mod_cast hlt
      calc (10 : ℚ) ^ (-4 : ℤ) ≤ (0x1a36e2eb1c432d + 1 / 2) * 2 ^ (-66 : ℤ) := by norm_num
        _ ≤ (m - gap m (-66)) * 2 ^ (-66 : ℤ) :=
          mul_le_mul_of_nonneg_right (by linarith) (by positivity)
        _ ≤ (Shortest.ofBinary m (-66)).value := hlow

theorem value_ofBinary_lt : (Shortest.ofBinary m q).value < 10 ^ (16 : ℤ) := by
  have hhigh := (Shortest.rounds_ofBinary hc).le_high
  rcases hplain.greatest with hq | ⟨rfl, hm⟩
  · have hm : (m : ℚ) + 1 ≤ 2 ^ 53 := by exact_mod_cast hc.lt
    calc (Shortest.ofBinary m q).value ≤ (m + 1 / 2) * 2 ^ q := hhigh
      _ ≤ (m + 1 / 2) * 2 ^ (0 : ℤ) :=
        mul_le_mul_of_nonneg_left (zpow_le_zpow_right₀ one_le_two (by omega)) (by positivity)
      _ < 10 ^ (16 : ℤ) := by
        norm_num
        linarith
  · have hm : (m : ℚ) + 1 ≤ 5000000000000000 := by exact_mod_cast hm
    calc (Shortest.ofBinary m 1).value ≤ (m + 1 / 2) * 2 ^ (1 : ℤ) := hhigh
      _ < 10 ^ (16 : ℤ) := by
        norm_num
        linarith

end

/-! ## Written and read -/

/-- A positive plain double is written as digits with a point, of a number nearest to it. -/
theorem exists_floatText_eq {x : Float} {m : Nat} {q : ℤ} (hx : ofFloat x = .finite false m q)
    (hc : Canonical m q) (hplain : Double.IsPlain m q) :
    ∃ p : Pointed, (floatText x : Text) = p.text ∧ Rounds m q p.value := by
  have hrounds := Shortest.rounds_ofBinary hc
  have hlow := le_value_ofBinary hc hplain
  have hhigh := value_ofBinary_lt hc hplain
  have hpos : 0 < (Shortest.ofBinary m q).digits := hrounds.digits_pos hc.pos
  generalize hs : Shortest.ofBinary m q = s at *
  obtain ⟨hleast, hgreatest⟩ := exponent_bounds hpos hlow hhigh
  obtain ⟨p, hlayout, hvalue⟩ := exists_positional_eq Nat.toDigits_ne_nil
    (digits_toDigits s.digits) (s.exponent + (Nat.toDigits 10 s.digits).length - 1 + 1)
  refine ⟨p, ?_, ?_⟩
  · have htext : FloatStyle.plain.magnitude m q = p.chars := by
      rw [FloatStyle.magnitude, if_neg (Nat.ne_of_gt hc.pos)]
      simp only [hs]
      rw [if_pos ⟨hleast, Int.le_of_lt_add_one hgreatest⟩, hlayout]
    simp only [floatText, FloatStyle.text, hx]
    rw [if_neg Bool.false_ne_true, htext, Pointed.text, Text.ofString, String.toList_ofList]
  · rw [sub_add_cancel, add_sub_cancel_right, digitsValue_toDigits] at hvalue
    rw [hvalue]
    exact hrounds

/-- The doubles that are written without a sign and without an exponent. -/
def Plain (x : Float) : Prop := x = 0 ∨ 1e-4 ≤ x ∧ x < 1e16

/-- A plain double is written as a literal, and the literal is read as the double. -/
theorem literal_floatText {x : Float} (h : Plain x) :
    (Lexeme.number (floatText x)).Spelled ∧ Grammar.literal (floatText x) = x := by
  rcases h with rfl | ⟨hleast, hgreatest⟩
  · have htext : floatText (0 : Float) = "0.0" := by decide +kernel
    rw [htext]
    exact ⟨(Pointed.behind 0 (digits_zeros 1)).spelled_text, by decide +kernel⟩
  · obtain ⟨m, q, hm, hx, hplain⟩ := Double.exists_of_between hleast hgreatest
    obtain ⟨hfinite, hc, hbits⟩ := Double.of_unpack hx
    obtain ⟨p, htext, hrounds⟩ := exists_floatText_eq hfinite hc hplain
    have hread : bitsOfDecimal ⟨false, Decimal.digitsValue (p.whole ++ p.fraction),
        0 - (p.fraction.length : ℤ)⟩ = pattern m q := bitsOfDecimal_of_rounds hc hrounds
    rw [htext]
    refine ⟨p.spelled_text, p.literal_text.trans ?_⟩
    exact (congrArg floatOfBits hread).trans hbits

end FormulaGraph
