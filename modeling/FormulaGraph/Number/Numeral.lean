import FormulaGraph.Number.Scalar
import FormulaGraph.Text.Basic
import FormulaGraph.Text.Blank
/-!
# Numbers written as text

**Numerals.** A numeral is an optional sign followed by decimal digits with at most one point, at
least one digit, and an optional power of ten; or by `inf`, `infinity` or `nan` in any case.

**Where numerals are read.** `Numeral.given?` reads a value that is given to a factor as a text:
padding around it is ignored, digits may be of any script, and an underscore may stand between two
digits. `Numeral.recorded?` reads a number that a record or the command line holds as text: padding
is ignored, and where there is none, single underscores inside the text are too.
-/
namespace FormulaGraph

/-- The number that a numeral stands for, before it is rounded to a scalar. -/
inductive Numeral where
  | decimal (d : Decimal)
  | special (s : Special)
  deriving DecidableEq, Repr

namespace Numeral

/-- The number of digits that a whole number in a document may have. -/
def maxDigits : Nat := 4300

/-- The refusal of a whole number with too many digits. -/
def tooLongMessage (digits : Nat) : String :=
  s!"Exceeds the limit ({maxDigits} digits) for integer string conversion: " ++
    s!"value has {digits} digits; " ++
    "use sys.set_int_max_str_digits() to increase the limit"

def value {α : Type} [Scalar α] : Numeral → α
  | .decimal d => Scalar.ofDecimal d
  | .special s => Scalar.ofSpecial s

/-- The decimal with the given digits before and after the point, times `10 ^ exponent`. -/
def ofDigits (negative : Bool) (whole fraction : List Char) (exponent : Int) : Decimal :=
  ⟨negative, Decimal.digitsValue (whole ++ fraction), exponent - fraction.length⟩

/-- A sign, if there is one, and the rest. -/
def takeSign : List Char → Bool × List Char
  | '+' :: rest => (false, rest)
  | '-' :: rest => (true, rest)
  | cs => (false, cs)

/-- The digits at the start and the rest. -/
def takeDigits (cs : List Char) : List Char × List Char :=
  (cs.takeWhile Char.isDigit, cs.dropWhile Char.isDigit)

/-- A power of ten that fills the rest of the numeral; an empty rest is the power 0. -/
def exponent? : List Char → Option Int
  | [] => some 0
  | e :: rest =>
    if e = 'e' ∨ e = 'E' then
      let (negative, digits) := takeSign rest
      if digits ≠ [] ∧ digits.all Char.isDigit then
        let n : Int := Decimal.digitsValue digits
        some (if negative then -n else n)
      else none
    else none

def unsigned? (negative : Bool) (cs : List Char) : Option Numeral :=
  let lower := cs.map Char.toLower
  if lower = "inf".toList ∨ lower = "infinity".toList then
    some (.special (if negative then .negInfinity else .infinity))
  else if lower = "nan".toList then some (.special .nan)
  else
    let (whole, rest) := takeDigits cs
    let (fraction, rest) := match rest with
      | '.' :: rest => takeDigits rest
      | _ => ([], rest)
    if whole = [] ∧ fraction = [] then none
    else (exponent? rest).map fun e => .decimal (ofDigits negative whole fraction e)

def read? (cs : List Char) : Option Numeral :=
  let (negative, rest) := takeSign cs
  unsigned? negative rest

/-- Removes underscores that stand between two digits; any other underscore is refused. -/
def joinDigits? (previous : Option Char) : List Char → Option (List Char)
  | [] => some []
  | '_' :: rest =>
    match previous, rest with
    | some p, d :: _ =>
      if p.isDigit ∧ d.isDigit then joinDigits? (some '_') rest else none
    | _, _ => none
  | c :: rest => (joinDigits? (some c) rest).map (c :: ·)

/-- The ASCII form of a digit of any script; other characters stay. -/
def plainDigit (c : Char) : Char :=
  match Text.digitValue? c with
  | some d => Char.ofNat ('0'.toNat + d)
  | none => c

/-- Reads a number that is given to a factor. -/
def given? (t : Text) : Option Numeral :=
  t.chars?.bind fun cs =>
    (joinDigits? none ((Text.strip Text.isPadding cs).map plainDigit)).bind read?

/-- Whether the text has two underscores side by side. -/
def hasDoubleUnderscore : List Char → Bool
  | '_' :: '_' :: _ => true
  | _ :: rest => hasDoubleUnderscore rest
  | [] => false

/-- Reads a number that a record or the command line holds as text. -/
def recorded? (t : Text) : Option Numeral :=
  t.chars?.bind fun cs =>
    match read? (Text.strip Text.isPadding cs) with
    | some n => some n
    | none =>
      if cs.head? = some '_' ∨ cs.getLast? = some '_' ∨ hasDoubleUnderscore cs then none
      else read? (cs.filter (· ≠ '_'))

end Numeral

end FormulaGraph
