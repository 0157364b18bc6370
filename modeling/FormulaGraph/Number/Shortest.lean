import FormulaGraph.Number.Binary64
/-!
# Shortest decimal text of a double

**Digits.** `Shortest.digits` finds the fewest significant digits that read back as the number, and
of those the nearest. The reals that round to `m · 2 ^ q` form an interval around it that holds its
two ends exactly when `m` is even; on the grid of `n` digits only the two neighbours of the number
can lie inside, so for `n = 1, 2, … 17` these two are tested. Seventeen digits always suffice.

**Layout.** What a text looks like is a `FloatStyle`: the range of exponents written positionally,
and the names of the special values. `FloatStyle.plain` is used in messages and in values files,
`FloatStyle.json` inside documents.
-/
namespace FormulaGraph

/-- `digits · 10 ^ exponent`, the digits of a positive number. -/
structure Shortest where
  digits : Nat
  exponent : Int
  deriving DecidableEq, Repr

namespace Shortest

/-- `x · 10 ^ e` compared with `y`, for `x = n / d`: the pair of naturals to compare. -/
def scaleBy (n d : Nat) (e : Int) : Nat × Nat :=
  if 0 ≤ e then (n * Nat.pow 10 e.toNat, d) else (n, d * Nat.pow 10 (-e).toNat)

/-- The floor of the decimal logarithm of the positive ratio `num / den`. -/
def floorLog10 (num den : Nat) : Int :=
  let guess := (Binary64.floorLog2 num den * 30103) / 100000
  let atLeast (p : Int) : Bool :=
    let (a, b) := scaleBy num den (-p)
    b ≤ a
  if atLeast (guess + 1) then guess + 1 else if atLeast guess then guess else guess - 1

/-- The better of the two neighbours of `m · 2 ^ q` on the grid `10 ^ p` that read back as it. -/
def onGrid? (m : Nat) (q p : Int) : Option Nat :=
  -- All quantities are multiples of `2 ^ (q - 2)`, divided by the grid step.
  let (unitNum, unitDen) :=
    let (a, b) := Binary64.ratio 1 (q - 2)
    scaleBy a b (-p)
  let value := 4 * m * unitNum
  let high := (4 * m + 2) * unitNum
  let low := (4 * m - (if m = Nat.pow 2 52 ∧ -1074 < q then 1 else 2)) * unitNum
  let inside (k : Nat) : Bool :=
    let x := k * unitDen
    if m % 2 = 0 then low ≤ x && x ≤ high else low < x && x < high
  let below := value / unitDen
  let above := below + 1
  match inside below, inside above with
  | true, true =>
    if value - below * unitDen < above * unitDen - value then some below
    else if above * unitDen - value < value - below * unitDen then some above
    else if below % 2 = 0 then some below else some above
  | true, false => some below
  | false, true => some above
  | false, false => none

/-- Drops trailing zeros, at most `fuel` of them. -/
def trim : (fuel : Nat) → Shortest → Shortest
  | 0, s => s
  | fuel + 1, s =>
    if s.digits % 10 = 0 ∧ s.digits ≠ 0 then trim fuel ⟨s.digits / 10, s.exponent + 1⟩ else s

/-- The shortest digits of `m · 2 ^ q` for positive `m`. -/
def ofBinary (m : Nat) (q : Int) : Shortest :=
  let (num, den) := Binary64.ratio m q
  let top := floorLog10 num den
  let found := (List.range 17).findSome? fun (n : Nat) =>
    let p := top - n
    match onGrid? m q p with
    | some d => if d = 0 then none else some (Shortest.mk d p)
    | none => none
  trim 18 (found.getD ⟨m, 0⟩)

end Shortest

/-- How a double is laid out as text. -/
structure FloatStyle where
  /-- Decimal exponents from here on are written positionally … -/
  leastPositional : Int
  /-- … up to here. -/
  greatestPositional : Int
  /-- Digits of the written exponent, at least. -/
  exponentDigits : Nat
  special : Special → String

namespace FloatStyle

/-- Positional from `1e-4` to below `1e16`, otherwise scientific with a signed exponent of two
digits. -/
def plain : FloatStyle := ⟨-4, 15, 2, Special.text⟩

/-- The same inside documents, with the names that the document format has for special values. -/
def json : FloatStyle :=
  { plain with
    special := fun
      | .infinity => "Infinity"
      | .negInfinity => "-Infinity"
      | .nan => "NaN" }

def zeros (n : Nat) : List Char := List.replicate n '0'

/-- `digits` with the decimal point after the first `point` of them; a point at least is written. -/
def positional (digits : List Char) (point : Int) : List Char :=
  if point ≤ 0 then '0' :: '.' :: zeros (-point).toNat ++ digits
  else
    let n := point.toNat
    if digits.length ≤ n then digits ++ zeros (n - digits.length) ++ ['.', '0']
    else digits.take n ++ '.' :: digits.drop n

/-- One digit before the point, the rest after it if there is a rest, then the exponent. -/
def scientific (style : FloatStyle) (digits : List Char) (exponent : Int) : List Char :=
  let mantissa := match digits with
    | [] => []
    | [d] => [d]
    | d :: rest => d :: '.' :: rest
  let written := Nat.toDigits 10 exponent.natAbs
  mantissa ++ 'e' :: (if exponent < 0 then '-' else '+') ::
    zeros (style.exponentDigits - written.length) ++ written

def magnitude (style : FloatStyle) (m : Nat) (q : Int) : List Char :=
  if m = 0 then ['0', '.', '0']
  else
    let s := Shortest.ofBinary m q
    let digits := Nat.toDigits 10 s.digits
    let exponent := s.exponent + digits.length - 1
    if style.leastPositional ≤ exponent ∧ exponent ≤ style.greatestPositional then
      positional digits (exponent + 1)
    else style.scientific digits exponent

/-- The text of a double. -/
def text (style : FloatStyle) (x : Float) : String :=
  match Binary64.ofFloat x with
  | .special s => style.special s
  | .finite negative m q =>
    String.ofList (if negative then '-' :: style.magnitude m q else style.magnitude m q)

end FloatStyle

/-- The plain text of a double, as messages and answers have it. -/
def floatText (x : Float) : String := FloatStyle.plain.text x

end FormulaGraph
