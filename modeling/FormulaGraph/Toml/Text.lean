import FormulaGraph.Toml.Fault
/-!
# Texts in a configuration file

A text stands in double quotes, with escapes, or in single quotes, as it is; in three quotes of
either kind it may go over several lines. Control characters other than the tab are never allowed,
the newline only between three quotes. A newline directly behind three opening quotes is dropped,
and up to two quotes directly before three closing ones belong to the text.
-/
namespace FormulaGraph.Toml

/-- Whether a character may not stand in a text or comment; newlines only if `multiline`. -/
def isIllegal (multiline : Bool) (c : Char) : Bool :=
  (c.toNat < 0x20 || c.toNat == 0x7f) && c != '\t' && !(multiline && c == '\n')

def isSpace (c : Char) : Bool := c == ' ' || c == '\t'

def isSpaceOrNewline (c : Char) : Bool := isSpace c || c == '\n'

/-- Refuses the first illegal character of a part of the text that starts at `offset`. -/
def checkLegal (multiline : Bool) (offset : Nat) (part : List Char) : Except ReadError Unit :=
  match part.findIdx? (isIllegal multiline), part.find? (isIllegal multiline) with
  | some i, some c => failAt (.invalidCharacter c) (offset + i)
  | _, _ => .ok ()

/-! ## Escapes -/

/-- The character of `count` hexadecimal digits at the start of a text. -/
def hexChar (count offset : Nat) (cs : List Char) : Except ReadError Char :=
  let digits := (cs.take count).mapM Text.hexValue?
  match digits with
  | none => failAt .invalidHex offset
  | some ds =>
    if ds.length ≠ count then failAt .invalidHex offset
    else
      let n := ds.foldl (fun n d => 16 * n + d) 0
      if n < 0xd800 ∨ (0xe000 ≤ n ∧ n ≤ 0x10ffff) then .ok (Char.ofNat n)
      else failAt .noScalar (offset + count)

/-- The character that an escape letter stands for. -/
def escaped? : Char → Option Char
  | 'b' => some '\x08'
  | 't' => some '\t'
  | 'n' => some '\n'
  | 'f' => some '\x0c'
  | 'r' => some '\r'
  | '"' => some '"'
  | '\\' => some '\\'
  | _ => none

/-- The end of a line behind a backslash: how many characters up to the next one that counts. -/
def lineEnd (offset : Nat) (cs : List Char) : Except ReadError Nat :=
  let spaces := (cs.takeWhile isSpace).length
  match cs.drop spaces with
  | [] => .ok spaces
  | '\n' :: rest => .ok (spaces + 1 + (rest.takeWhile isSpaceOrNewline).length)
  | _ => failAt .unescapedBackslash (offset + spaces)

/-- What an escape stands for, and how many characters it takes behind the backslash. -/
def escape (multiline : Bool) (offset : Nat) (cs : List Char) :
    Except ReadError (List Char × Nat) :=
  match cs with
  | [] => failAt .unescapedBackslash (offset + 1)
  | c :: rest =>
    if multiline ∧ c = '\n' then .ok ([], 1 + (rest.takeWhile isSpaceOrNewline).length)
    else if multiline ∧ isSpace c then (lineEnd (offset + 1) rest).map fun n => ([], n + 1)
    else if c = 'u' then (hexChar 4 (offset + 1) rest).map fun d => ([d], 5)
    else if c = 'U' then (hexChar 8 (offset + 1) rest).map fun d => ([d], 9)
    else match escaped? c with
      | some d => .ok ([d], 1)
      | none => failAt .unescapedBackslash (offset + 1)

/-! ## Texts -/

/-- The characters up to the closing double quotes and the offset behind these; `acc` holds the
earlier characters, last first. -/
def escapedBody (multiline : Bool) (offset : Nat) (acc cs : List Char) :
    Except ReadError (List Char × Nat) :=
  match cs with
  | [] => failAt .unterminatedText offset
  | '"' :: rest =>
    if !multiline then .ok (acc.reverse, offset + 1)
    else if rest.take 2 = ['"', '"'] then .ok (acc.reverse, offset + 3)
    else escapedBody multiline (offset + 1) ('"' :: acc) rest
  | '\\' :: rest =>
    match escape multiline (offset + 1) rest with
    | .error e => .error e
    | .ok (out, n) =>
      escapedBody multiline (offset + 1 + n) (out.reverse ++ acc) (rest.drop n)
  | c :: rest =>
    if isIllegal multiline c then failAt (.illegalCharacter c) offset
    else escapedBody multiline (offset + 1) (c :: acc) rest
termination_by cs.length
decreasing_by
  all_goals simp only [List.length_drop, List.length_cons]; omega

/-- What stands before the first occurrence of a delimiter. -/
def before? {σ : Type} [BEq σ] (delimiter : List σ) : List σ → Option (List σ)
  | [] => none
  | c :: rest =>
    if delimiter.isPrefixOf (c :: rest) then some []
    else (before? delimiter rest).map (c :: ·)

/-- The characters up to closing single quotes and the offset behind these. -/
def literalBody (multiline : Bool) (offset : Nat) (cs : List Char) :
    Except ReadError (List Char × Nat) :=
  let delimiter := if multiline then ['\'', '\'', '\''] else ['\'']
  match before? delimiter cs with
  | none => failAt (.expected (.ofChars delimiter)) (offset + cs.length)
  | some part => do
    checkLegal multiline offset part
    pure (part, offset + part.length + delimiter.length)

/-- The quotes, two at most, that stand directly behind three closing ones. -/
def extraQuotes (quote : Char) (cs : List Char) : List Char := (cs.take 2).takeWhile (· == quote)

/-- A text that opens with the given quote at the cursor. -/
def quotedText (quote : Char) : Rule Text := fun c =>
  if h : c.rest = [] then failAt .invalidValue c.offset
  else
    let start := c.advance 1
    let body := if quote = '"' then escapedBody false start.offset [] start.rest
      else literalBody false start.offset start.rest
    match body with
    | .error e => .error e
    | .ok (cs, stop) => .ok (.advance c (stop - c.offset) (.ofChars cs) h)

/-- A text that opens with three of the given quotes at the cursor. -/
def linesText (quote : Char) : Rule Text := fun c =>
  if h : c.rest = [] then failAt .invalidValue c.offset
  else
    let opened := c.advance 3
    let start := if opened.rest.head? = some '\n' then opened.advance 1 else opened
    let body := if quote = '"' then escapedBody true start.offset [] start.rest
      else literalBody true start.offset start.rest
    match body with
    | .error e => .error e
    | .ok (cs, stop) =>
      let extra := extraQuotes quote (c.rest.drop (stop - c.offset))
      .ok (.advance c (stop - c.offset + extra.length) (.ofChars (cs ++ extra)) h)

end FormulaGraph.Toml
