import FormulaGraph.Number.Binary64
/-!
# Amounts to four places

A displayed amount is the exact value of a double rounded to four decimal places, a half to the even
neighbour, with a comma between groups of three integer digits. Trailing zeros of the fraction are
dropped, and the point with them when no fraction is left. A negative number keeps its sign even
when it rounds to zero.
-/
namespace FormulaGraph.Places

/-- The number of decimal places shown at most. -/
def places : Nat := 4

/-- Puts a comma before every group of three digits counted from the right. -/
def groups : List Char → List Char
  | [] => []
  | c :: rest =>
    if rest ≠ [] ∧ rest.length % 3 = 0 then c :: ',' :: groups rest else c :: groups rest

/-- The last `places` digits of `n`, with leading zeros. -/
def fractionDigits (n : Nat) : List Char :=
  let written := Nat.toDigits 10 (n % Nat.pow 10 places)
  List.replicate (places - written.length) '0' ++ written

def dropTrailing (c : Char) (cs : List Char) : List Char := (cs.reverse.dropWhile (· == c)).reverse

/-- The text of `units / 10 ^ places`. -/
def magnitude (units : Nat) : List Char :=
  let whole := groups (Nat.toDigits 10 (units / Nat.pow 10 places))
  match dropTrailing '0' (fractionDigits units) with
  | [] => whole
  | fraction => whole ++ '.' :: fraction

/-- The magnitude of `m · 2 ^ q` in units of the last place. -/
def units (m : Nat) (q : Int) : Nat :=
  let (num, den) := Binary64.ratio m q
  roundHalfEven (num * Nat.pow 10 places) den

def text (x : Float) : String :=
  match Binary64.ofFloat x with
  | .special s => s.text
  | .finite negative m q =>
    let shown := magnitude (units m q)
    String.ofList (if negative then '-' :: shown else shown)

end FormulaGraph.Places
