import FormulaGraph.Json.Value
import FormulaGraph.Number.Shortest
import FormulaGraph.Text.Utf8
import FormulaGraph.Toml.Value
/-!
# Writing tables

An object of document values is written as a table: a header and an entry for every value, followed
by its inner tables, an empty line before each. A table that holds nothing but tables has no header
of its own. Keys of ASCII letters, digits, hyphen and underscore stand bare, others in quotes.

**Arrays** have an item per line. An array of tables is written as blocks under a double header
unless each of its tables fits into one line of at most `lineWidth` characters. A table inside a
line starts a level count of its own for the arrays it holds.

**Writing** goes piece by piece: a header, an entry or an empty line. An entry that holds nothing
somewhere inside has no piece. Where an array of tables does, how to write it cannot be decided, and
the table around it has no piece from its header on. A piece with half of a surrogate pair is one
that a file cannot hold. Writing stops at the first of these; what stands before is in the file.
-/
namespace FormulaGraph.Toml

/-- How a code point is written inside quotes. -/
def escapePoint (p : CodePoint) : Text :=
  let n := p.toNat
  if p = .char '"' ∨ p = .char '\\' then "\\" ++ .singleton p
  else if n = 0x08 then "\\b"
  else if n = 0x0a then "\\n"
  else if n = 0x0c then "\\f"
  else if n = 0x0d then "\\r"
  else if (n < 0x20 ∧ n ≠ 0x09) ∨ n = 0x7f then .ofChars ('\\' :: 'u' :: Text.hex 4 n)
  else .singleton p

def writeText (t : Text) : Text := "\"" ++ .joined "" (t.points.map escapePoint) ++ "\""

def writeKey (key : Text) : Text :=
  if key ≠ "" ∧ key.points.all (·.holds isBareChar) then key else writeText key

/-- The spaces in front of an item of an array on a level. -/
def itemIndent (level : Nat) : Text := .ofChars (List.replicate (4 * level) ' ')

mutual

/-- A value behind its key; `level` counts the arrays around it. Nothing cannot be written. -/
def writeValue (level : Nat) : Json Float → Option Text
  | .null => none
  | .text s => some (writeText s)
  | .int i => some (toString i)
  | .real x => some (floatText x)
  | .bool b => some (if b then "true" else "false")
  | .list items =>
    if items.isEmpty then some "[]"
    else (writeItems (level + 1) items).map fun lines => "[\n" ++ lines ++ itemIndent level ++ "]"
  | .object fields =>
    if fields.isEmpty then some "\x7b\x7d"
    else (writeFields fields).map fun written => "\x7b " ++ .joined ", " written ++ " \x7d"

def writeItems (level : Nat) : List (Json Float) → Option Text
  | [] => some ""
  | v :: rest => do
    let first ← writeValue level v
    let others ← writeItems level rest
    pure (itemIndent level ++ first ++ ",\n" ++ others)

/-- The fields of a table inside a line. -/
def writeFields : List (Text × Json Float) → Option (List Text)
  | [] => some []
  | (key, v) :: rest => do
    let first ← writeValue 0 v
    let others ← writeFields rest
    pure ((writeKey key ++ " = " ++ first) :: others)

end

/-- The longest line that a table inside an array may take, with its indentation and its comma. -/
def lineWidth : Nat := 100

/-- Whether a table can be an item of an array. -/
def fitsLine (v : Json Float) : Option Bool :=
  (writeValue 0 v).map fun written =>
    let line := itemIndent 1 ++ written ++ ","
    line.length ≤ lineWidth && !line.points.contains '\n'

/-- Whether all of the tables can be items; those behind one that cannot are not looked at. -/
def allFitLine : List (Json Float) → Option Bool
  | [] => some true
  | v :: rest => do if ← fitsLine v then allFitLine rest else pure false

def isTable {α : Type} : Json α → Bool
  | .object _ => true
  | _ => false

/-- Whether an array is written as blocks. -/
def isBlockArray (items : List (Json Float)) : Option Bool :=
  if !items.isEmpty && items.all isTable then (allFitLine items).map (!·) else some false

/-- Whether a value is written as one or several blocks of its own. -/
def isBlock : Json Float → Option Bool
  | .object _ => some true
  | .list items => isBlockArray items
  | _ => some false

/-- The fields that have entries under the header of their table. -/
def entryFields : List (Text × Json Float) → Option (List (Text × Json Float))
  | [] => some []
  | f :: rest => do
    let block ← isBlock f.2
    let others ← entryFields rest
    pure (if block then others else f :: others)

/-- A piece of a file; none where a value holds nothing. -/
abbrev Piece := Option Text

def entry (key : Text) (v : Json Float) : Piece :=
  (writeValue 0 v).map fun written => writeKey key ++ " = " ++ written ++ "\n"

/-- The header of a table, if it has one. -/
def header (name : Text) (inArray hasEntries hasBlocks : Bool) : List Piece :=
  if inArray then [some ("[[" ++ name ++ "]]\n")]
  else if name ≠ "" ∧ (hasEntries ∨ !hasBlocks) then [some ("[" ++ name ++ "]\n")]
  else []

/-- The name of a table inside another. -/
def innerName (name key : Text) : Text :=
  if name = "" then writeKey key else name ++ "." ++ writeKey key

mutual

/-- The blocks of a table, each in its pieces. -/
def blocks (name : Text) (inArray : Bool) (fields : List (Text × Json Float)) :
    List (List Piece) :=
  match entryFields fields with
  | none => [[none]]
  | some shown =>
    let own := header name inArray (!shown.isEmpty) (shown.length < fields.length) ++
      shown.map fun (key, v) => entry key v
    (if own.isEmpty then [] else [own]) ++ innerBlocks name fields
termination_by (sizeOf fields, 1)

/-- The blocks of the tables inside a table. -/
def innerBlocks (name : Text) (fields : List (Text × Json Float)) : List (List Piece) :=
  match fields with
  | [] => []
  | (key, .object inner) :: rest =>
    blocks (innerName name key) false inner ++ innerBlocks name rest
  | (key, .list items) :: rest =>
    (if isBlockArray items = some true then arrayBlocks (innerName name key) items else []) ++
      innerBlocks name rest
  | _ :: rest => innerBlocks name rest
termination_by (sizeOf fields, 0)

/-- The blocks of an array of tables. -/
def arrayBlocks (name : Text) (items : List (Json Float)) : List (List Piece) :=
  match items with
  | [] => []
  | .object fields :: rest => blocks name true fields ++ arrayBlocks name rest
  | _ :: rest => arrayBlocks name rest
termination_by (sizeOf items, 0)

end

def emptyLine : Piece := some "\n"

/-- The pieces of a file with these fields. -/
def pieces (fields : List (Text × Json Float)) : List Piece :=
  ((blocks "" false fields).intersperse [emptyLine]).flatten

/-- Why a file was not written to its end. -/
inductive WriteFault where
  /-- A value holds nothing somewhere inside. -/
  | nothing
  | unencodable (e : Text.EncodeFault)
  deriving DecidableEq, Repr

def WriteFault.message : WriteFault → String
  | .nothing => "Object of type 'NoneType' is not TOML serializable"
  | .unencodable e => e.message

/-- What is in a file after writing, and what stopped the writing if something did. -/
structure Written where
  text : String
  stopped : Option WriteFault

/-- Writes pieces up to the first one that cannot be written. -/
def written : List Piece → Written
  | [] => ⟨"", none⟩
  | none :: _ => ⟨"", some .nothing⟩
  | some piece :: rest =>
    match piece.encode with
    | .error e => ⟨"", some (.unencodable e)⟩
    | .ok s => ⟨s ++ (written rest).text, (written rest).stopped⟩

end FormulaGraph.Toml
