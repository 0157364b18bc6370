import FormulaGraph.Json.Value
import FormulaGraph.Number.Shortest
/-!
# Writing documents

A document is written in one line, or with every item and field on a line of its own, indented by a
fixed number of spaces per level. An empty list or object is written without a line break. Texts
hold printable ASCII only: other code points are written as the numbers of their UTF-16 units.
-/
namespace FormulaGraph.Json

/-- One UTF-16 unit as an escape. -/
def unitEscape (n : Nat) : List Char := '\\' :: 'u' :: Text.hex 4 n

/-- How a code point is written inside a text. -/
def escapePoint (p : CodePoint) : List Char :=
  let n := p.toNat
  if n = 0x22 ∨ n = 0x5c then ['\\', Char.ofNat n]
  else if n = 0x0a then ['\\', 'n']
  else if n = 0x0d then ['\\', 'r']
  else if n = 0x09 then ['\\', 't']
  else if n = 0x08 then ['\\', 'b']
  else if n = 0x0c then ['\\', 'f']
  else if 0x20 ≤ n ∧ n ≤ 0x7e then [Char.ofNat n]
  else if n < 0x10000 then unitEscape n
  else unitEscape (0xd800 + (n - 0x10000) / 0x400) ++ unitEscape (0xdc00 + (n - 0x10000) % 0x400)

def writeText (t : Text) : String := String.ofList ('"' :: t.points.flatMap escapePoint ++ ['"'])

/-- How the items of a list or object are set out; `none` is one line. -/
abbrev Indent := Option Nat

/-- The break before an item on the given level. -/
def lineBreak (indent : Indent) (level : Nat) : String :=
  match indent with
  | none => ""
  | some n => String.ofList ('\n' :: List.replicate (n * level) ' ')

/-- Puts items between two brackets. -/
def enclose (indent : Indent) (level : Nat) (opening closing : String) (items : List String) :
    String :=
  if items.isEmpty then opening ++ closing
  else
    let separator := match indent with
      | none => ", "
      | some _ => "," ++ lineBreak indent (level + 1)
    opening ++ lineBreak indent (level + 1) ++ separator.intercalate items ++
      lineBreak indent level ++ closing

mutual

/-- The text of a value that stands on the given level. -/
def write (indent : Indent) (level : Nat) : Json Float → String
  | .null => "null"
  | .bool true => "true"
  | .bool false => "false"
  | .int i => toString i
  | .real x => FloatStyle.json.text x
  | .text s => writeText s
  | .list items => enclose indent level "[" "]" (writeItems indent (level + 1) items)
  | .object fields =>
    enclose indent level "\x7b" "\x7d" (writeFields indent (level + 1) fields)

def writeItems (indent : Indent) (level : Nat) : List (Json Float) → List String
  | [] => []
  | v :: rest => write indent level v :: writeItems indent level rest

def writeFields (indent : Indent) (level : Nat) : List (Text × Json Float) → List String
  | [] => []
  | (name, v) :: rest =>
    (writeText name ++ ": " ++ write indent level v) :: writeFields indent level rest

end

/-- The text of a document. -/
def toText (indent : Indent) (v : Json Float) : String := write indent 0 v

end FormulaGraph.Json
