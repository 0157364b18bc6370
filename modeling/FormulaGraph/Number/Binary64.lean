import FormulaGraph.Number.Scalar
/-!
# Binary64 numbers

A finite double is `m · 2 ^ q` with `m < 2 ^ 53` and `-1074 ≤ q`. `nearestBits` rounds a positive
ratio of naturals to the nearest double, a tie to the even mantissa, and `Binary64.ofFloat` reads
the pair back; both work on naturals alone.

**Rounding.** The scale `q` puts the quotient between `2 ^ 52` and `2 ^ 53`, or is `-1074` for the
smallest numbers. For the rounded mantissa `m` the bit pattern is `(q + 1074) · 2 ^ 52 + m` in all
cases: below `2 ^ 52` the number is subnormal, and a mantissa that rounds up to `2 ^ 53` carries
into the exponent by itself. A pattern that reaches `2047 · 2 ^ 52` is infinity.

**Decimals.** Far outside the range of doubles the answer is known from the number of digits, so no
large power of ten is computed.
-/
namespace FormulaGraph

/-- The quotient of two naturals rounded to the nearest natural, a tie to the even one. -/
def roundHalfEven (num den : Nat) : Nat :=
  let q := num / den
  let r := num % den
  if 2 * r < den then q
  else if den < 2 * r then q + 1
  else if q % 2 = 0 then q else q + 1

/-- The number of decimal digits of a natural; 0 has one. -/
def digitCount (n : Nat) : Nat := (Nat.toDigits 10 n).length

/-- A finite or special double, taken apart. -/
inductive Binary64 where
  /-- `± mantissa · 2 ^ exponent` -/
  | finite (negative : Bool) (mantissa : Nat) (exponent : Int)
  | special (s : Special)
  deriving DecidableEq, Repr

namespace Binary64

def infinityBits : Nat := 2047 * Nat.pow 2 52

/-- The floor of the binary logarithm of `num / den`, both positive. -/
def floorLog2 (num den : Nat) : Int :=
  let a : Int := (num.log2 : Int) - den.log2
  let reached : Bool :=
    if 0 ≤ a then den * Nat.pow 2 a.toNat ≤ num else den ≤ num * Nat.pow 2 (-a).toNat
  if reached then a else a - 1

/-- The bit pattern of the double nearest to `num / den`. -/
def nearestBits (num den : Nat) : Nat :=
  if num = 0 ∨ den = 0 then 0
  else
    let q : Int := max (floorLog2 num den - 52) (-1074)
    let m := if 0 ≤ q then roundHalfEven num (den * Nat.pow 2 q.toNat)
      else roundHalfEven (num * Nat.pow 2 (-q).toNat) den
    min ((q + 1074).toNat * Nat.pow 2 52 + m) infinityBits

def signBits (negative : Bool) : Nat := if negative then Nat.pow 2 63 else 0

/-- The bit pattern of the double nearest to a decimal. -/
def bitsOfDecimal (d : Decimal) : Nat :=
  let magnitude : Int := d.exponent + digitCount d.coefficient
  let bits :=
    if d.coefficient = 0 ∨ magnitude < -400 then 0
    else if 400 < magnitude then infinityBits
    else if 0 ≤ d.exponent then nearestBits (d.coefficient * Nat.pow 10 d.exponent.toNat) 1
    else nearestBits d.coefficient (Nat.pow 10 (-d.exponent).toNat)
  signBits d.negative + bits

def floatOfBits (bits : Nat) : Float := Float.ofBits (UInt64.ofNat bits)

/-- Takes a double apart. -/
def ofFloat (x : Float) : Binary64 :=
  let bits : Nat := x.toBits.toNat
  let negative : Bool := Nat.pow 2 63 ≤ bits
  let biased : Nat := bits / Nat.pow 2 52 % 2048
  let fraction : Nat := bits % Nat.pow 2 52
  if biased = 2047 then
    .special (if fraction ≠ 0 then .nan else if negative then .negInfinity else .infinity)
  else if biased = 0 then .finite negative fraction (-1074)
  else .finite negative (Nat.pow 2 52 + fraction) ((biased : Int) - 1075)

/-- The magnitude of `mantissa · 2 ^ exponent` as a ratio. -/
def ratio (mantissa : Nat) (exponent : Int) : Nat × Nat :=
  if 0 ≤ exponent then (mantissa * Nat.pow 2 exponent.toNat, 1)
  else (mantissa, Nat.pow 2 (-exponent).toNat)

/-- The value of a number without a fraction. -/
def whole? : Binary64 → Option Int
  | .finite negative m q =>
    let (num, den) := ratio m q
    if num % den = 0 then some (if negative then -((num / den : Nat) : Int) else (num / den : Nat))
    else none
  | .special _ => none

end Binary64

end FormulaGraph
