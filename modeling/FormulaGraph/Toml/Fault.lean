import FormulaGraph.Text.Cursor
import FormulaGraph.Text.Quoted
/-!
# Faults of a configuration file

The first fault from the left ends the reading. Its message names the line and the column, or the
end of the document when nothing is left there.
-/
namespace FormulaGraph.Toml

/-- A dotted key. -/
abbrev Key := List Text

/-- A key as messages show it: its parts quoted, in parentheses, a comma behind a single one. -/
def keyText (key : Key) : Text :=
  match key with
  | [part] => "(" ++ Text.quoted part ++ ",)"
  | parts => "(" ++ .joined ", " (parts.map Text.quoted) ++ ")"

/-- What is wrong in a text that is no configuration file. -/
inductive Fault where
  | invalidStatement
  | noLineEnd
  | declaredTwice (key : Key)
  | overwritten
  | unclosedHeader
  | immutable (key : Key)
  | unclosedArrayHeader
  | redefined (key : Key)
  | noEquals
  | invalidKey
  | unclosedArray
  | unclosedTable
  | duplicateKey (name : Text)
  | unescapedBackslash
  | invalidHex
  | noScalar
  | expected (delimiter : Text)
  | unterminatedText
  | illegalCharacter (c : Char)
  | invalidCharacter (c : Char)
  | invalidMoment
  | invalidValue
  deriving DecidableEq, Repr

def Fault.message : Fault → Text
  | .invalidStatement => "Invalid statement"
  | .noLineEnd => "Expected newline or end of document after a statement"
  | .declaredTwice key => "Cannot declare " ++ keyText key ++ " twice"
  | .overwritten => "Cannot overwrite a value"
  | .unclosedHeader => "Expected ']' at the end of a table declaration"
  | .immutable key => "Cannot mutate immutable namespace " ++ keyText key
  | .unclosedArrayHeader => "Expected ']]' at the end of an array declaration"
  | .redefined key => "Cannot redefine namespace " ++ keyText key
  | .noEquals => "Expected '=' after a key in a key/value pair"
  | .invalidKey => "Invalid initial character for a key part"
  | .unclosedArray => "Unclosed array"
  | .unclosedTable => "Unclosed inline table"
  | .duplicateKey name => "Duplicate inline table key " ++ Text.quoted name
  | .unescapedBackslash => "Unescaped '\\' in a string"
  | .invalidHex => "Invalid hex value"
  | .noScalar => "Escaped character is not a Unicode scalar value"
  | .expected delimiter => "Expected " ++ Text.quoted delimiter
  | .unterminatedText => "Unterminated string"
  | .illegalCharacter c => "Illegal character " ++ Text.quoted (.singleton c)
  | .invalidCharacter c => "Found invalid character " ++ Text.quoted (.singleton c)
  | .invalidMoment => "Invalid date or datetime"
  | .invalidValue => "Invalid value"

/-- A fault with its place. -/
def Fault.located (f : Fault) (text : List Char) (offset : Nat) : Text :=
  if text.length ≤ offset then f.message ++ " (at end of document)"
  else
    let (line, column) := Text.lineAndColumn '\n' text offset
    f.message ++ s!" (at line {line}, column {column})"

/-- Why a text could not be read. -/
inductive ReadError where
  | fault (f : Fault) (offset : Nat)
  | numberTooLong (digits : Nat)
  deriving DecidableEq, Repr

def failAt {β : Type} (f : Fault) (offset : Nat) : Except ReadError β := .error (.fault f offset)

/-- A reader of a part of a file. -/
abbrev Rule (β : Type) := (c : Cursor Char) → Except ReadError (Got β c)

end FormulaGraph.Toml
