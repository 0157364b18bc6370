import FormulaGraph.Text.Hex
import FormulaGraph.Text.Unprintable
/-!
# Quoted text

Names inside messages are quoted so that any text can be told apart. A text stands in single quotes,
or in double quotes when it holds a single quote and no double quote. Inside, the backslash and the
chosen quote are escaped by a backslash; newline, return and tab have their letters, and every other
unprintable code point is written by its number in two, four or eight lower-case hexadecimal digits.
A list is written in brackets, its items quoted and separated by a comma and a space.
-/
namespace FormulaGraph.Text

/-- The escape of a code point by its number. -/
def numberEscape (n : Nat) : Text :=
  ofChars (if n < 0x100 then '\\' :: 'x' :: hex 2 n
    else if n < 0x10000 then '\\' :: 'u' :: hex 4 n
    else '\\' :: 'U' :: hex 8 n)

/-- How a code point is written inside the given quote. -/
def escapePoint (quote : Char) (p : CodePoint) : Text :=
  if p = .char quote ∨ p = .char '\\' then "\\" ++ singleton p
  else if p = .char '\n' then "\\n"
  else if p = .char '\r' then "\\r"
  else if p = .char '\t' then "\\t"
  else if isUnprintable p then numberEscape p.toNat
  else singleton p

/-- The quote that a text is written in. -/
def quoteFor (t : Text) : Char :=
  if .char '\'' ∈ t.points ∧ .char '"' ∉ t.points then '"' else '\''

/-- The text in quotes. -/
def quoted (t : Text) : Text :=
  let quote := quoteFor t
  ⟨.char quote :: t.points.flatMap (fun p => (escapePoint quote p).points) ++ [.char quote]⟩

/-- Items in brackets. -/
def bracketed (items : List Text) : Text := "[" ++ joined ", " items ++ "]"

/-- A list of texts in brackets, each in quotes. -/
def quotedList (items : List Text) : Text := bracketed (items.map quoted)

end FormulaGraph.Text
