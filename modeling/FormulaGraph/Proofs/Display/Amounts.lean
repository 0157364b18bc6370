import FormulaGraph.Display.Printed
import FormulaGraph.Number.Exact
import FormulaGraph.Proofs.Number.Positional
/-!
# Amounts are exact to four places

A finite double is shown as the nearest multiple of `10 ^ -4`, the even one of two: read as a
decimal without its commas, the text is exactly that. It is laid out in groups of three digits from
the right, without leading zeros, and without a point or zeros at its end that say nothing
(`Layout`). Zeros are dropped from a text with all four places (`full`), so they end at the point.

* `exists_grouped`: groups of three digits.
* `Layout.read?_chars`: a layout is read as its digits.
* `Layout.dropTrailing_eq`: what is dropped at the end is behind the point, or the point.
* `amount_exact`: the text of a finite double.
-/
namespace FormulaGraph

/-! ## Reading digits -/

namespace Numeral

theorem toLower_of_isDigit {c : Char} (h : c.isDigit = true) : c.toLower = c := by
  have hle : c.val ≤ 57 := of_decide_eq_true (Bool.and_eq_true_iff.1 h).2
  exact dif_neg fun hupper => absurd (UInt32.le_trans hupper.1 hle) (by decide)

theorem takeDigits_append {ds rest : List Char} (hds : Digits ds)
    (hrest : ∀ c ∈ rest.head?, c.isDigit = false) : takeDigits (ds ++ rest) = (ds, rest) := by
  have hstop : takeDigits rest = ([], rest) := by
    cases rest with
    | nil => rfl
    | cons c rest =>
      have hc : ¬c.isDigit = true := Bool.eq_false_iff.1 (hrest c rfl)
      rw [takeDigits, List.takeWhile_cons_of_neg hc, List.dropWhile_cons_of_neg hc]
  obtain ⟨htake, hdrop⟩ := Prod.mk.inj hstop
  rw [takeDigits, List.takeWhile_append_of_pos hds, List.dropWhile_append_of_pos hds, htake, hdrop,
    List.append_nil]

theorem takeSign_of_isDigit {c : Char} (cs : List Char) (h : c.isDigit = true) :
    takeSign (c :: cs) = (false, c :: cs) := by
  unfold takeSign
  split
  · rename_i heq
    cases heq
    cases h
  · rename_i heq
    cases heq
    cases h
  · rfl

/-- A fraction behind its point; without a fraction there is no point. -/
def pointed : List Char → List Char
  | [] => []
  | fraction => '.' :: fraction

/-- Digits, with a fraction or without, are read as their number. -/
theorem unsigned?_digits (negative : Bool) {whole fraction : List Char} (hne : whole ≠ [])
    (hwhole : Digits whole) (hfraction : Digits fraction) :
    unsigned? negative (whole ++ pointed fraction) =
      some (.decimal (ofDigits negative whole fraction 0)) := by
  obtain ⟨c, ds, rfl⟩ := List.exists_cons_of_ne_nil hne
  have hc : c.isDigit = true := hwhole c List.mem_cons_self
  have hletter : ∀ {d : Char} {rest : List Char}, d.isDigit = false →
      ((c :: ds) ++ pointed fraction).map Char.toLower ≠ d :: rest := by
    intro d rest hd heq
    rw [List.cons_append, List.map_cons, toLower_of_isDigit hc] at heq
    rw [(List.cons.inj heq).1] at hc
    cases hd.symm.trans hc
  have hpoint : takeDigits ((c :: ds) ++ pointed fraction) = (c :: ds, pointed fraction) := by
    refine takeDigits_append hwhole ?_
    cases fraction <;> rintro _ ⟨⟩
    rfl
  have hinf : ((c :: ds) ++ pointed fraction).map Char.toLower ≠ "inf".toList := hletter rfl
  have hinfinity : ((c :: ds) ++ pointed fraction).map Char.toLower ≠ "infinity".toList :=
    hletter rfl
  have hnan : ((c :: ds) ++ pointed fraction).map Char.toLower ≠ "nan".toList := hletter rfl
  rw [unsigned?]
  dsimp only
  rw [if_neg (not_or.2 ⟨hinf, hinfinity⟩), if_neg hnan, hpoint]
  cases fraction with
  | nil => rfl
  | cons d fraction =>
    have hall : takeDigits (d :: fraction) = (d :: fraction, []) := by
      simpa using @takeDigits_append _ [] hfraction nofun
    simp only [pointed, hall]
    rfl

def sign (negative : Bool) : List Char := if negative then ['-'] else []

theorem read?_digits (negative : Bool) {whole fraction : List Char} (hne : whole ≠ [])
    (hwhole : Digits whole) (hfraction : Digits fraction) :
    read? (sign negative ++ whole ++ pointed fraction) =
      some (.decimal (ofDigits negative whole fraction 0)) := by
  have hsign : takeSign (sign negative ++ whole ++ pointed fraction) =
      (negative, whole ++ pointed fraction) := by
    cases negative with
    | true => rfl
    | false =>
      obtain ⟨c, ds, rfl⟩ := List.exists_cons_of_ne_nil hne
      exact takeSign_of_isDigit _ (hwhole c List.mem_cons_self)
  rw [read?, hsign]
  exact unsigned?_digits negative hne hwhole hfraction

end Numeral

theorem Exact.ofDecimal_places (negative : Bool) (c places : Nat) :
    Exact.ofDecimal ⟨negative, c, 0 - (places : ℤ)⟩ =
      .value ((if negative then -(c : ℚ) else c) / 10 ^ places) := by
  have hneg : -(0 - (places : ℤ)) = places := by omega
  rw [Exact.ofDecimal, hneg, Int.toNat_natCast]
  dsimp only
  split
  · obtain rfl : places = 0 := by omega
    simp
  · simp

namespace Places

open Numeral (pointed sign)

/-! ## Groups of three digits -/

/-- Digits in groups: the first has one to three, and all others have three. -/
structure Grouped (cs first : List Char) (others : List (List Char)) : Prop where
  shown : groups cs = first ++ others.flatMap (',' :: ·)
  digits : cs = first ++ others.flatten
  pos : 1 ≤ first.length
  le_three : first.length ≤ 3
  aligned : first.length % 3 = cs.length % 3
  three : ∀ g ∈ others, g.length = 3

/-- A digit is put in front of the first group, or is a group of its own if that is full. -/
theorem exists_grouped (cs : List Char) (hne : cs ≠ []) :
    ∃ first others, Grouped cs first others := by
  induction cs with
  | nil => exact absurd rfl hne
  | cons c cs ih =>
    by_cases hlast : cs = []
    · subst hlast
      exact ⟨[c], [], rfl, rfl, Nat.le_refl _, Nat.le_add_left 1 2, rfl, nofun⟩
    · obtain ⟨first, others, h⟩ := ih hlast
      have hlength : (c :: cs).length = cs.length + 1 := List.length_cons
      have hle := h.le_three
      have hpos := h.pos
      have haligned := h.aligned
      by_cases hfull : cs.length % 3 = 0
      · refine ⟨[c], first :: others, ?_, ?_, Nat.le_refl _, Nat.le_add_left 1 2, ?_, ?_⟩
        · rw [groups, if_pos ⟨hlast, hfull⟩, h.shown]
          rfl
        · rw [List.flatten_cons, ← h.digits]
          rfl
        · rw [hlength, List.length_singleton]
          omega
        · exact List.forall_mem_cons.2 ⟨by omega, h.three⟩
      · have hlength' : (c :: first).length = first.length + 1 := List.length_cons
        refine ⟨c :: first, others, ?_, ?_, ?_, ?_, ?_, h.three⟩
        · rw [groups, if_neg fun hboth => hfull hboth.2, h.shown]
          rfl
        · rw [List.cons_append, ← h.digits]
        · omega
        · omega
        · omega

/-- A digit alone is a group alone. -/
theorem Grouped.eq_of_singleton {cs first : List Char} {others : List (List Char)} {c : Char}
    (h : Grouped cs first others) (hone : first ++ others.flatten = [c]) :
    first = [c] ∧ others = [] := by
  have hpos := h.pos
  obtain ⟨d, ds, rfl⟩ := List.exists_cons_of_length_pos hpos
  obtain ⟨rfl, hrest⟩ := List.cons.inj hone
  obtain ⟨rfl, hflatten⟩ := List.append_eq_nil_iff.1 hrest
  refine ⟨rfl, List.eq_nil_iff_forall_not_mem.2 fun g hg => ?_⟩
  have hthree := h.three g hg
  rw [List.flatten_eq_nil_iff.1 hflatten g hg] at hthree
  cases hthree

/-! ## What is dropped at the end -/

theorem dropTrailing_concat (c d : Char) (cs : List Char) :
    dropTrailing c (cs ++ [d]) = if d = c then dropTrailing c cs else cs ++ [d] := by
  refine (List.rdropWhile_concat (· == c) cs d).trans ?_
  simp only [beq_iff_eq]
  rfl

/-- What is dropped is a run of the character. -/
theorem exists_eq_dropTrailing_append (c : Char) (cs : List Char) :
    ∃ k, cs = dropTrailing c cs ++ List.replicate k c := by
  induction cs using List.reverseRecOn with
  | nil => exact ⟨0, rfl⟩
  | append_singleton cs d ih =>
    rw [dropTrailing_concat]
    split
    · rename_i hd
      obtain ⟨k, hk⟩ := ih
      refine ⟨k + 1, ?_⟩
      rw [List.replicate_succ', ← List.append_assoc, ← hk, hd]
    · exact ⟨0, (List.append_nil _).symm⟩

theorem getLast?_dropTrailing (c : Char) (cs : List Char) :
    (dropTrailing c cs).getLast? ≠ some c := by
  induction cs using List.reverseRecOn with
  | nil => exact nofun
  | append_singleton cs d ih =>
    rw [dropTrailing_concat]
    split
    · exact ih
    · rename_i hd
      rw [List.getLast?_concat]
      exact fun heq => hd (Option.some.inj heq)

/-- Nothing is dropped in front of another character. -/
theorem dropTrailing_append_cons {c d : Char} (h : d ≠ c) (front back : List Char) :
    dropTrailing c (front ++ d :: back) = front ++ d :: dropTrailing c back := by
  induction back using List.reverseRecOn with
  | nil => exact (dropTrailing_concat c d front).trans (if_neg h)
  | append_singleton back e ih =>
    rw [← List.cons_append, ← List.append_assoc, dropTrailing_concat, dropTrailing_concat, ih]
    split
    · rfl
    · rw [List.append_assoc, List.cons_append]

theorem dropTrailing_eq_self {c : Char} {cs : List Char} (h : cs.getLast? ≠ some c) :
    dropTrailing c cs = cs := by
  induction cs using List.reverseRecOn with
  | nil => rfl
  | append_singleton cs d _ =>
    rw [List.getLast?_concat] at h
    rw [dropTrailing_concat, if_neg fun hd => h (congrArg some hd)]

/-! ## The digits of an amount -/

/-- The digits in front of the point. -/
def wholeDigits (n : Nat) : List Char := Nat.toDigits 10 (n / 10 ^ places)

theorem head?_toDigits {n : Nat} (h : (Nat.toDigits 10 n).head? = some '0') : n = 0 := by
  induction n using Nat.strong_induction_on with
  | _ n ih =>
    rw [Nat.toDigits_eq_if (by decide)] at h
    split at h
    · rename_i hlt
      interval_cases n <;> first | rfl | cases h
    · rename_i hge
      rw [List.head?_append_of_ne_nil _ Nat.toDigits_ne_nil] at h
      have hzero := ih (n / 10) (by omega) h
      omega

theorem fractionDigits_eq (n : Nat) :
    fractionDigits n = FloatStyle.zeros (places - (Nat.toDigits 10 (n % 10 ^ places)).length) ++
      Nat.toDigits 10 (n % 10 ^ places) := rfl

theorem length_fractionDigits (n : Nat) : (fractionDigits n).length = places := by
  have hlt : n % 10 ^ places < 10 ^ places := Nat.mod_lt _ (by decide)
  have hle := (Nat.length_toDigits_le_iff (by decide) (by decide)).2 hlt
  rw [fractionDigits_eq, List.length_append, length_zeros]
  omega

theorem digits_fractionDigits (n : Nat) : Digits (fractionDigits n) :=
  (digits_zeros _).append (digits_toDigits _)

/-- All digits together are the number of units. -/
theorem digitsValue_append_fractionDigits (n : Nat) :
    Decimal.digitsValue (wholeDigits n ++ fractionDigits n) = n := by
  rw [digitsValue_append, length_fractionDigits, fractionDigits_eq, digitsValue_append,
    digitsValue_zeros, wholeDigits, digitsValue_toDigits, digitsValue_toDigits, Nat.mul_zero,
    Nat.zero_add]
  exact Nat.div_add_mod n (10 ^ places)

/-! ## Layouts -/

/-- How an amount is laid out. -/
structure Layout where
  negative : Bool
  /-- The first one to three digits. -/
  first : List Char
  /-- All other digits in front of the point, in groups of three. -/
  others : List (List Char)
  fraction : List Char
  first_length : 1 ≤ first.length ∧ first.length ≤ 3
  others_length : ∀ g ∈ others, g.length = 3
  whole_digits : Digits (first ++ others.flatten)
  no_leading_zero : first.head? = some '0' → first = ['0'] ∧ others = []
  fraction_length : fraction.length ≤ places
  fraction_digits : Digits fraction
  no_trailing_zero : fraction.getLast? ≠ some '0'

namespace Layout

/-- The digits in front of the point. -/
def whole (l : Layout) : List Char := l.first ++ l.others.flatten

/-- What stands in front of the point. -/
def integer (l : Layout) : List Char :=
  sign l.negative ++ l.first ++ l.others.flatMap (',' :: ·)

def chars (l : Layout) : List Char := l.integer ++ pointed l.fraction

theorem whole_ne (l : Layout) : l.whole ≠ [] := by
  have hpos := l.first_length.1
  intro h
  rw [(List.append_eq_nil_iff.1 h).1] at hpos
  exact absurd hpos (by decide)

end Layout

theorem filter_comma {ds : List Char} (h : Digits ds) : ds.filter (· ≠ ',') = ds := by
  refine List.filter_eq_self.2 fun c hc => decide_eq_true ?_
  rintro rfl
  exact absurd (h _ hc) (by decide)

theorem filter_comma_flatMap {groups : List (List Char)} (h : Digits groups.flatten) :
    (groups.flatMap (',' :: ·)).filter (· ≠ ',') = groups.flatten := by
  induction groups with
  | nil => rfl
  | cons g groups ih =>
    rw [List.flatten_cons] at h
    obtain ⟨hg, hgroups⟩ := List.forall_mem_append.1 h
    rw [List.flatMap_cons, List.flatten_cons, List.filter_append, ih hgroups,
      List.filter_cons_of_neg (by decide), filter_comma hg]

/-- Without its commas, a layout is read as its digits. -/
theorem Layout.read?_chars (l : Layout) :
    Numeral.read? (l.chars.filter (· ≠ ',')) =
      some (.decimal (Numeral.ofDigits l.negative l.whole l.fraction 0)) := by
  obtain ⟨hfirst, hothers⟩ := List.forall_mem_append.1 l.whole_digits
  have hsign : (sign l.negative).filter (· ≠ ',') = sign l.negative := by
    cases l.negative <;> rfl
  have hfraction : (pointed l.fraction).filter (· ≠ ',') = pointed l.fraction := by
    cases h : l.fraction with
    | nil => rfl
    | cons d ds =>
      have hdigits := l.fraction_digits
      rw [h] at hdigits
      rw [pointed, List.filter_cons_of_pos (by decide), filter_comma hdigits]
      exact nofun
  have hchars : l.chars.filter (· ≠ ',') = sign l.negative ++ l.whole ++ pointed l.fraction := by
    rw [chars, integer, whole, List.filter_append, List.filter_append, List.filter_append, hsign,
      hfraction, filter_comma hfirst, filter_comma_flatMap hothers, List.append_assoc (sign _)]
  rw [hchars]
  exact Numeral.read?_digits l.negative l.whole_ne l.whole_digits l.fraction_digits

theorem Layout.point_not_mem (l : Layout) : '.' ∉ l.integer := by
  obtain ⟨hfirst, hothers⟩ := List.forall_mem_append.1 l.whole_digits
  have hdigit : ¬Char.isDigit '.' = true := by decide
  intro hmem
  rcases List.mem_append.1 hmem with hmem | hmem
  · rcases List.mem_append.1 hmem with hmem | hmem
    · cases hnegative : l.negative <;> simp [sign, hnegative] at hmem
    · exact hdigit (hfirst _ hmem)
  · obtain ⟨g, hg, hmem⟩ := List.mem_flatMap.1 hmem
    rcases List.mem_cons.1 hmem with heq | hmem
    · cases heq
    · exact hdigit (hothers _ (List.mem_flatten_of_mem hg hmem))

theorem magnitude_eq (n : Nat) :
    magnitude n = groups (wholeDigits n) ++ pointed (dropTrailing '0' (fractionDigits n)) := by
  unfold magnitude
  dsimp only
  split
  · rename_i h
    rw [h, pointed, List.append_nil]
    rfl
  · rename_i h
    rw [pointed]
    · rfl
    · exact h

/-- Every number of units has a layout. -/
theorem exists_layout (negative : Bool) (n : Nat) : ∃ l : Layout, l.negative = negative ∧
    l.integer = sign negative ++ groups (wholeDigits n) ∧ l.whole = wholeDigits n ∧
      l.fraction = dropTrailing '0' (fractionDigits n) := by
  obtain ⟨first, others, h⟩ := exists_grouped (wholeDigits n) Nat.toDigits_ne_nil
  obtain ⟨k, hk⟩ := exists_eq_dropTrailing_append '0' (fractionDigits n)
  have hwhole : Digits (wholeDigits n) := digits_toDigits _
  have hfraction : Digits (dropTrailing '0' (fractionDigits n)) := by
    have hall := digits_fractionDigits n
    rw [hk] at hall
    exact (List.forall_mem_append.1 hall).1
  have hlength : (dropTrailing '0' (fractionDigits n)).length ≤ places := by
    have hall := congrArg List.length hk
    rw [length_fractionDigits, List.length_append] at hall
    omega
  have hzero : first.head? = some '0' → first = ['0'] ∧ others = [] := by
    intro hhead
    have hsome : (wholeDigits n).head? = some '0' := by
      rw [h.digits, List.head?_append, hhead]
      rfl
    have hone : first ++ others.flatten = ['0'] := by
      rw [← h.digits, wholeDigits, head?_toDigits hsome]
      rfl
    exact h.eq_of_singleton hone
  refine ⟨⟨negative, first, others, dropTrailing '0' (fractionDigits n), ⟨h.pos, h.le_three⟩,
    h.three, h.digits ▸ hwhole, hzero, hlength, hfraction, getLast?_dropTrailing '0' _⟩, rfl, ?_,
    h.digits.symm, rfl⟩
  rw [h.shown, ← List.append_assoc]
  rfl

/-- A number with all of its places. -/
def full (negative : Bool) (n : Nat) : List Char :=
  sign negative ++ groups (wholeDigits n) ++ '.' :: fractionDigits n

/-- Dropping zeros and then a point at the end takes nothing from what is in front of the point. -/
theorem Layout.dropTrailing_eq (l : Layout) {ds : List Char}
    (h : l.fraction = dropTrailing '0' ds) :
    dropTrailing '.' (dropTrailing '0' (l.integer ++ '.' :: ds)) = l.chars := by
  have hlast : l.integer.getLast? ≠ some '.' := fun hmem =>
    l.point_not_mem (List.mem_of_getLast? hmem)
  rw [dropTrailing_append_cons (by decide), ← h, Layout.chars]
  cases hfraction : l.fraction with
  | nil =>
    rw [dropTrailing_concat, if_pos rfl, dropTrailing_eq_self hlast, pointed, List.append_nil]
  | cons d ds =>
    have hdigits := l.fraction_digits
    rw [hfraction] at hdigits
    rw [pointed]
    · refine dropTrailing_eq_self fun hpoint => ?_
      rw [List.getLast?_append_cons, List.getLast?_cons_cons] at hpoint
      exact absurd (hdigits _ (List.mem_of_getLast? hpoint)) (by decide)
    · exact nofun

/-- What is read is the number of units. -/
theorem Layout.ofDecimal_eq (l : Layout) {n : Nat} (hwhole : l.whole = wholeDigits n)
    (hfraction : l.fraction = dropTrailing '0' (fractionDigits n)) :
    Exact.ofDecimal (Numeral.ofDigits l.negative l.whole l.fraction 0) =
      .value ((if l.negative then -(n : ℚ) else n) / 10 ^ places) := by
  obtain ⟨k, hk⟩ := exists_eq_dropTrailing_append '0' (fractionDigits n)
  rw [← hfraction] at hk
  have hlength : places = l.fraction.length + k := by
    rw [← length_fractionDigits n, hk, List.length_append, List.length_replicate]
  have hunits : n = 10 ^ k * Decimal.digitsValue (l.whole ++ l.fraction) := by
    calc n = Decimal.digitsValue (wholeDigits n ++ fractionDigits n) :=
          (digitsValue_append_fractionDigits n).symm
      _ = Decimal.digitsValue (l.whole ++ l.fraction ++ FloatStyle.zeros k) := by
          rw [hk, hwhole, List.append_assoc]
          rfl
      _ = 10 ^ k * Decimal.digitsValue (l.whole ++ l.fraction) := by
          rw [digitsValue_append, length_zeros, digitsValue_zeros, Nat.add_zero]
  have hpow : (10 : ℚ) ^ k ≠ 0 := pow_ne_zero k (by norm_num)
  have hten : (10 : ℚ) ^ l.fraction.length ≠ 0 := pow_ne_zero _ (by norm_num)
  rw [Numeral.ofDigits, Exact.ofDecimal_places, hlength, pow_add]
  generalize Decimal.digitsValue (l.whole ++ l.fraction) = d at hunits ⊢
  subst hunits
  congr 1
  cases l.negative
  · simp only [Bool.false_eq_true, if_false]
    push_cast
    field_simp
  · simp only [if_true]
    push_cast
    field_simp

/-- A double with all of its places. -/
def fullText : Binary64 → List Char
  | .finite negative m q => full negative (units m q)
  | .special s => s.text.toList

theorem nearestEven_units (m : Nat) (q : ℤ) :
    NearestEven (m * 2 ^ q * 10 ^ places) (units m q) := by
  have hratio : (((Binary64.ratio m q).1 * Nat.pow 10 places : ℕ) / (Binary64.ratio m q).2 : ℚ) =
      m * 2 ^ q * 10 ^ places := by
    rw [← Binary64.ratio_eq, Nat.pow_eq]
    push_cast
    ring
  rw [← hratio]
  exact nearestEven_roundHalfEven (Binary64.ratio_pos m q)

theorem text_of_finite {x : Float} {negative : Bool} {m : Nat} {q : ℤ}
    (hx : Binary64.ofFloat x = .finite negative m q) :
    text x = String.ofList (sign negative ++ magnitude (units m q)) := by
  rw [text, hx]
  cases negative <;> rfl

end Places

/-- The number that a finite double is. -/
def Binary64.rational? : Binary64 → Option ℚ
  | .finite negative m q => some (if negative then -(m * 2 ^ q) else m * 2 ^ q)
  | .special _ => none

namespace Display

open Places

/-- **An amount is exact to four places.** A finite double is shown in a layout that is read,
without its commas, as the nearest multiple of `10 ^ -4`. The layout is what is left of the number
with all of its places when zeros are dropped at its end and then a point; nothing in front of the
point is dropped. -/
theorem amount_exact {x : Float} {v : ℚ} (hx : (Binary64.ofFloat x).rational? = some v) :
    ∃ l : Layout, amount (some x) .null = .ok (.ofChars l.chars) ∧
      (∃ k d, NearestEven (v * 10 ^ 4) k ∧
        Numeral.read? (l.chars.filter (· ≠ ',')) = some (.decimal d) ∧
        Exact.ofDecimal d = .value (k / 10 ^ 4)) ∧
      ∃ ds, ds.length = 4 ∧ fullText (Binary64.ofFloat x) = l.integer ++ '.' :: ds ∧
        dropTrailing '.' (dropTrailing '0' (fullText (Binary64.ofFloat x))) = l.chars := by
  cases hparts : Binary64.ofFloat x with
  | special s =>
    rw [hparts] at hx
    cases hx
  | finite negative m q =>
    rw [hparts] at hx
    obtain rfl := Option.some.inj hx
    obtain ⟨l, rfl, hinteger, hwhole, hfraction⟩ := exists_layout negative (units m q)
    have hfull : full l.negative (units m q) =
        l.integer ++ '.' :: fractionDigits (units m q) := by
      rw [full, hinteger]
    refine ⟨l, ?_, ⟨if l.negative then -(units m q : ℤ) else units m q, _, ?_, l.read?_chars, ?_⟩,
      fractionDigits (units m q), length_fractionDigits _, hfull, ?_⟩
    · have hshown : Numeral.sign l.negative ++ magnitude (units m q) = l.chars := by
        rw [magnitude_eq, ← List.append_assoc, ← hinteger, ← hfraction, Layout.chars]
      have htext : amount (some x) .null = .ok (.ofString (text x)) := rfl
      rw [htext, text_of_finite hparts, Text.ofString, String.toList_ofList, hshown]
    · have hunits := nearestEven_units m q
      cases l.negative with
      | false => exact hunits
      | true =>
        rw [if_pos rfl, if_pos rfl, neg_mul]
        exact hunits.neg
    · rw [l.ofDecimal_eq hwhole hfraction]
      cases l.negative <;> simp [places]
    · rw [fullText, hfull]
      exact l.dropTrailing_eq hfraction

theorem amount_exact_grouped :
    (Binary64.ofFloat (-1234567.5)).rational? = some (-1234567.5) ∧
    amount (some (-1234567.5)) .null = .ok "-1,234,567.5" ∧
    ∃ k d, NearestEven (-1234567.5 * 10 ^ 4) k ∧
      Numeral.read? "-1234567.5".toList = some (.decimal d) ∧
      Exact.ofDecimal d = .value (k / 10 ^ 4) := by
  have hparts : Binary64.ofFloat (-1234567.5) = .finite true 5302427037204480 (-32) := by
    decide +kernel
  have hx : (Binary64.ofFloat (-1234567.5)).rational? = some (-1234567.5) := by
    rw [hparts, Binary64.rational?]
    norm_num
  have hshown : amount (some (-1234567.5)) .null = .ok "-1,234,567.5" := by
    have htext : Places.text (-1234567.5) = "-1,234,567.5" := by decide +kernel
    exact congrArg (fun s => Except.ok (Text.ofString s)) htext
  obtain ⟨l, hl, ⟨k, d, hk, hd, hvalue⟩, -⟩ := amount_exact hx
  have hchars : l.chars = "-1,234,567.5".toList := by
    have htexts := congrArg Text.chars? (Except.ok.inj (hl.symm.trans hshown))
    rw [Text.ofString, Text.chars?_ofChars, Text.chars?_ofChars] at htexts
    exact Option.some.inj htexts
  rw [hchars] at hd
  exact ⟨hx, hshown, k, d, hk, hd, hvalue⟩

end Display

end FormulaGraph
