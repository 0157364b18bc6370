import FormulaGraph.Number.Numeral
import FormulaGraph.Toml.Fault
import FormulaGraph.Toml.Value
/-!
# Numbers and moments in a configuration file

Each reader takes as much as fits from the start of the text and says how many characters that is;
what follows is for others to judge. Digits may be grouped by single underscores between them.
-/
namespace FormulaGraph.Toml

/-! ## Digits -/

/-- Digits and single underscores before digits. -/
def moreDigits (p : Char → Bool) : List Char → List Char
  | '_' :: d :: rest => if p d then '_' :: d :: moreDigits p rest else []
  | c :: rest => if p c then c :: moreDigits p rest else []
  | [] => []

/-- A run of digits, possibly in groups; empty when the text does not start with a digit. -/
def digitRun (p : Char → Bool) : List Char → List Char
  | c :: rest => if p c then c :: moreDigits p rest else []
  | [] => []

def withoutUnderscores (cs : List Char) : List Char := cs.filter (· ≠ '_')

/-- The value of digits in a base. -/
def valueIn (base : Nat) (cs : List Char) : Nat :=
  (withoutUnderscores cs).foldl (fun n c => base * n + (Text.hexValue? c).getD 0) 0

/-- The base that a letter behind a leading zero announces, and its digits. -/
def base? : Char → Option (Nat × (Char → Bool))
  | 'x' => some (16, fun c => (Text.hexValue? c).isSome)
  | 'b' => some (2, fun c => c == '0' || c == '1')
  | 'o' => some (8, fun c => '0' ≤ c && c ≤ '7')
  | _ => none

/-! ## Numbers -/

variable {α : Type} [Scalar α]

/-- How many characters a literal takes, and its value. -/
abbrev Found (α : Type) := Nat × Except ReadError (Value α)

/-- A whole number in another base than ten. -/
def based? : List Char → Option (Found α)
  | '0' :: letter :: rest =>
    (base? letter).bind fun (base, p) =>
      let run := digitRun p rest
      if run = [] then none
      else some (2 + run.length, .ok (.int (valueIn base run)))
  | _ => none

/-- The digits before the point: a zero alone, or a run that starts with another digit. -/
def wholeRun : List Char → List Char
  | '0' :: _ => ['0']
  | cs => digitRun Char.isDigit cs

/-- The digits behind a point, if a digit follows it. -/
def fractionRun : List Char → List Char
  | '.' :: rest => digitRun Char.isDigit rest
  | _ => []

/-- A power of ten, if it is complete: how many characters it takes, and its value. -/
def power? : List Char → Option (Nat × Int)
  | e :: rest =>
    if e = 'e' ∨ e = 'E' then
      let (negative, unsigned) := Numeral.takeSign rest
      let run := digitRun Char.isDigit unsigned
      if run = [] then none
      else
        let n : Int := Decimal.digitsValue (withoutUnderscores run)
        some (1 + (rest.length - unsigned.length) + run.length, if negative then -n else n)
    else none
  | [] => none

/-- A decimal number, whole unless it has a fraction or a power of ten. -/
def decimal? (cs : List Char) : Option (Found α) :=
  let (negative, unsigned) := Numeral.takeSign cs
  let signLength := cs.length - unsigned.length
  let run := wholeRun unsigned
  if run = [] then none
  else
    let whole := withoutUnderscores run
    let behind := unsigned.drop run.length
    let fraction := fractionRun behind
    let fractionLength := if fraction = [] then 0 else fraction.length + 1
    let length := signLength + run.length + fractionLength
    match power? (behind.drop fractionLength), fraction with
    | none, [] =>
      if Numeral.maxDigits < whole.length then some (length, .error (.numberTooLong whole.length))
      else
        let n : Int := Decimal.digitsValue whole
        some (length, .ok (.int (if negative then -n else n)))
    | power, _ =>
      let (powerLength, exponent) := power.getD (0, 0)
      let d := Numeral.ofDigits negative whole (withoutUnderscores fraction) exponent
      some (length + powerLength, .ok (.real (Scalar.ofDecimal d)))

/-- The names of numbers that are not finite, with a sign or without. -/
def special? (cs : List Char) : Option (Found α) :=
  let (negative, unsigned) := Numeral.takeSign cs
  let length := cs.length - unsigned.length + 3
  if unsigned.take 3 = "inf".toList then
    some (length, .ok (.real (Scalar.ofSpecial (if negative then .negInfinity else .infinity))))
  else if unsigned.take 3 = "nan".toList then some (length, .ok (.real Scalar.nan))
  else none

/-! ## Moments -/

/-- Takes exactly `count` digits with a value between two bounds. -/
def digits? (count low high : Nat) (cs : List Char) : Option (Nat × List Char) :=
  let run := cs.take count
  let n := Decimal.digitsValue run
  if run.length = count ∧ run.all Char.isDigit ∧ low ≤ n ∧ n ≤ high then some (n, cs.drop count)
  else none

/-- Takes one of the given characters. -/
def oneOf? (allowed : List Char) : List Char → Option (List Char)
  | c :: rest => if c ∈ allowed then some rest else none
  | [] => none

/-- The rest behind hours and minutes. -/
def hourMinute? (cs : List Char) : Option (List Char) := do
  let (_, cs) ← digits? 2 0 23 cs
  let cs ← oneOf? [':'] cs
  let (_, cs) ← digits? 2 0 59 cs
  pure cs

/-- The rest behind a time of day. -/
def time? (cs : List Char) : Option (List Char) := do
  let cs ← hourMinute? cs
  let cs ← oneOf? [':'] cs
  let (_, cs) ← digits? 2 0 59 cs
  match cs with
  | '.' :: d :: rest => if d.isDigit then pure (rest.dropWhile Char.isDigit) else pure cs
  | _ => pure cs

/-- The rest behind the distance from universal time, if it is given. -/
def afterOffset (cs : List Char) : List Char :=
  match oneOf? ['Z', 'z'] cs with
  | some rest => rest
  | none => ((oneOf? ['+', '-'] cs).bind hourMinute?).getD cs

def daysIn (year month : Nat) : Nat :=
  if month = 2 then
    if year % 4 = 0 ∧ (year % 100 ≠ 0 ∨ year % 400 = 0) then 29 else 28
  else if month ∈ [4, 6, 9, 11] then 30
  else 31

/-- A date with or without a time of day: its form, whether there is such a day, and the rest. -/
def date? (cs : List Char) : Option (Moment × Bool × List Char) := do
  let (year, cs) ← digits? 4 0 9999 cs
  let cs ← oneOf? ['-'] cs
  let (month, cs) ← digits? 2 1 12 cs
  let cs ← oneOf? ['-'] cs
  let (day, cs) ← digits? 2 1 31 cs
  let real : Bool := 1 ≤ year && day ≤ daysIn year month
  match (oneOf? ['T', 't', ' '] cs).bind time? with
  | some rest => pure (.dateTime, real, afterOffset rest)
  | none => pure (.date, real, cs)

/-- A date or a time of day at an offset of the text. -/
def moment? (offset : Nat) (cs : List Char) : Option (Found α) :=
  match date? cs with
  | some (m, true, rest) => some (cs.length - rest.length, .ok (.moment m))
  | some (_, false, _) => some (1, failAt .invalidMoment offset)
  | none => (time? cs).map fun rest => (cs.length - rest.length, .ok (.moment .time))

/-- Truth values. -/
def truth? (cs : List Char) : Option (Found α) :=
  if "true".toList.isPrefixOf cs then some (4, .ok (.bool true))
  else if "false".toList.isPrefixOf cs then some (5, .ok (.bool false))
  else none

/-- A value that is no text, array or table. -/
def literal : Rule (Value α) := fun c =>
  if h : c.rest = [] then failAt .invalidValue c.offset
  else
    let found : Option (Found α) :=
      truth? c.rest <|> moment? c.offset c.rest <|> based? c.rest <|> decimal? c.rest <|>
        special? c.rest
    match found with
    | none => failAt .invalidValue c.offset
    | some (_, .error e) => .error e
    | some (n, .ok v) => .ok (.advance c n v h)

end FormulaGraph.Toml
