import FormulaGraph.Toml.Draft
import FormulaGraph.Toml.Literal
import FormulaGraph.Toml.Text
/-!
# Reading configuration files

A file is a sequence of statements, one a line: a key with a value, the header of a table, the
header of a further table in an array, or nothing. Blanks are spaces and tabs; a comment goes from
`#` to the end of the line. Inside an array newlines and comments are blanks too.

**Recursion.** As in `FormulaGraph.Json.Reader`: every rule leaves a rest shorter than it got, and
`budget` counts the levels of arrays and tables written in place.
-/
namespace FormulaGraph.Toml

namespace Reader

variable {α : Type}

/-! ## Blanks and comments -/

def skipSpaces (c : Cursor Char) : Cursor Char := c.skipWhile isSpace

theorem skipSpaces_le (c : Cursor Char) : (skipSpaces c).rest.length ≤ c.rest.length :=
  c.skipWhile_le isSpace

/-- The characters of a comment behind its opening sign at `offset`. -/
def commentBody (offset : Nat) (cs : List Char) : Except ReadError (List Char) := do
  let body := cs.takeWhile (· ≠ '\n')
  checkLegal false (offset + 1) body
  pure body

/-- Skips blanks, newlines and comments from the start of `cs`. -/
def skipLines (offset : Nat) (cs : List Char) :
    Except ReadError { d : Cursor Char // d.rest.length ≤ cs.length } :=
  match cs with
  | [] => .ok ⟨⟨[], offset⟩, Nat.le_refl _⟩
  | ch :: rest =>
    if isSpaceOrNewline ch then
      match skipLines (offset + 1) rest with
      | .error e => .error e
      | .ok ⟨d, h⟩ => .ok ⟨d, Nat.le_succ_of_le h⟩
    else if ch = '#' then
      match commentBody offset rest with
      | .error e => .error e
      | .ok body =>
        match skipLines (offset + 1 + body.length) (rest.drop body.length) with
        | .error e => .error e
        | .ok ⟨d, h⟩ => .ok ⟨d, by simp only [List.length_drop, List.length_cons] at h ⊢; omega⟩
    else .ok ⟨⟨ch :: rest, offset⟩, Nat.le_refl _⟩
termination_by cs.length
decreasing_by
  all_goals simp only [List.length_drop, List.length_cons]; omega

/-- The cursor behind a character that has to stand there. -/
def expect (ch : Char) (f : Fault) : Rule Unit := fun c =>
  match h : c.rest with
  | [] => failAt f c.offset
  | d :: rest =>
    if d = ch then .ok ⟨(), ⟨rest, c.offset + 1⟩, by simp [h]⟩ else failAt f c.offset

/-! ## Keys -/

/-- One part of a key. -/
def keyPart : Rule Text := fun c =>
  if h : c.rest = [] then failAt .invalidKey c.offset
  else
    let bare := c.rest.takeWhile isBareChar
    if bare ≠ [] then .ok (.advance c bare.length (.ofChars bare) h)
    else match c.rest.head? with
      | some '"' => quotedText '"' c
      | some '\'' => quotedText '\'' c
      | _ => failAt .invalidKey c.offset

/-- A dotted key with the blanks behind it; `acc` holds the earlier parts, last first. -/
def keyFrom (acc : List Text) (c : Cursor Char) : Except ReadError (Got Key c) :=
  match keyPart c with
  | .error e => .error e
  | .ok part =>
    have hp := part.shorter
    have hs := skipSpaces_le part.next
    match h : (skipSpaces part.next).rest with
    | '.' :: rest =>
      let behind := skipSpaces ⟨rest, (skipSpaces part.next).offset + 1⟩
      have hb : behind.rest.length ≤ rest.length := skipSpaces_le ⟨rest, _⟩
      have hlt : behind.rest.length < c.rest.length := by
        simp only [h, List.length_cons] at hs; omega
      match keyFrom (part.value :: acc) behind with
      | .error e => .error e
      | .ok more => .ok (more.after (Nat.le_of_lt hlt))
    | _ => .ok ⟨(part.value :: acc).reverse, skipSpaces part.next, Nat.lt_of_le_of_lt hs hp⟩
termination_by c.rest.length

def key : Rule Key := keyFrom []

/-- A key, the equals sign and a value. -/
def pair (value : Rule (Value α)) : Rule (Key × Value α) := fun c =>
  match key c with
  | .error e => .error e
  | .ok k =>
    match expect '=' .noEquals k.next with
    | .error e => .error e
    | .ok eq =>
      match value (skipSpaces eq.next) with
      | .error e => .error e
      | .ok v => .ok ⟨(k.value, v.value), v.next, by
          have h1 := k.shorter
          have h2 := eq.shorter
          have h3 := skipSpaces_le eq.next
          have h4 := v.shorter
          omega⟩

/-! ## Arrays and tables written in place -/

/-- Items of an array from one of them on; `acc` holds the earlier ones, last first. -/
def items (value : Rule (Value α)) (acc : List (Value α)) (c : Cursor Char) :
    Except ReadError (Got (List (Value α)) c) :=
  match value c with
  | .error e => .error e
  | .ok v =>
    have hv := v.shorter
    match skipLines v.next.offset v.next.rest with
    | .error e => .error e
    | .ok ⟨d, hd⟩ =>
      let acc := v.value :: acc
      match h : d.rest with
      | ']' :: rest => .ok ⟨acc.reverse, ⟨rest, d.offset + 1⟩, by
          simp only [h, List.length_cons] at hd ⊢; omega⟩
      | ',' :: rest =>
        match skipLines (d.offset + 1) rest with
        | .error e => .error e
        | .ok ⟨next, hn⟩ =>
          have hlt : next.rest.length < c.rest.length := by
            simp only [h, List.length_cons] at hd; omega
          match h' : next.rest with
          | ']' :: rest => .ok ⟨acc.reverse, ⟨rest, next.offset + 1⟩, by
              simp only [h', List.length_cons] at hlt ⊢; omega⟩
          | _ =>
            match items value acc next with
            | .error e => .error e
            | .ok more => .ok (more.after (Nat.le_of_lt hlt))
      | _ => failAt .unclosedArray d.offset
termination_by c.rest.length

/-- An array from behind its opening bracket on. -/
def arrayAfterOpen (value : Rule (Value α)) : Rule (Value α) := fun c =>
  match skipLines c.offset c.rest with
  | .error e => .error e
  | .ok ⟨d, hd⟩ =>
    match h : d.rest with
    | ']' :: rest => .ok ⟨.array [], ⟨rest, d.offset + 1⟩, by
        simp only [h, List.length_cons] at hd ⊢; omega⟩
    | _ =>
      match items value [] d with
      | .error e => .error e
      | .ok got => .ok ((got.map .array).after hd)

/-- Lifts a refusal of the draft to an offset. -/
def atOffset {β : Type} (offset : Nat) : Except Fault β → Except ReadError β
  | .ok x => .ok x
  | .error f => failAt f offset

/-- Pairs of a table in place from one of them on. -/
def fields (value : Rule (Value α)) (t : Table α) (closed : List Key) (c : Cursor Char) :
    Except ReadError (Got (Table α) c) :=
  match pair value c with
  | .error e => .error e
  | .ok p =>
    have hp := p.shorter
    match atOffset p.next.offset (Draft.addInPlace t closed p.value.1 p.value.2) with
    | .error e => .error e
    | .ok t =>
      have hs := skipSpaces_le p.next
      match h : (skipSpaces p.next).rest with
      | '\x7d' :: rest => .ok ⟨t, ⟨rest, (skipSpaces p.next).offset + 1⟩, by
          simp only [h, List.length_cons] at hs ⊢; omega⟩
      | ',' :: rest =>
        let closed := if Draft.isContainer p.value.2 then p.value.1 :: closed else closed
        let next := skipSpaces ⟨rest, (skipSpaces p.next).offset + 1⟩
        have hn : next.rest.length ≤ rest.length := skipSpaces_le ⟨rest, _⟩
        have hlt : next.rest.length < c.rest.length := by
          simp only [h, List.length_cons] at hs; omega
        match fields value t closed next with
        | .error e => .error e
        | .ok more => .ok (more.after (Nat.le_of_lt hlt))
      | _ => failAt .unclosedTable (skipSpaces p.next).offset
termination_by c.rest.length

/-- A table in place from behind its opening brace on. -/
def tableAfterOpen (value : Rule (Value α)) : Rule (Value α) := fun c =>
  let start := skipSpaces c
  have hs : start.rest.length ≤ c.rest.length := skipSpaces_le c
  match h : start.rest with
  | '\x7d' :: rest => .ok ⟨.table [], ⟨rest, start.offset + 1⟩, by
      simp only [h, List.length_cons] at hs ⊢; omega⟩
  | _ =>
    match fields value [] [] start with
    | .error e => .error e
    | .ok got => .ok ((got.map .table).after hs)

/-- A value with at most `budget` levels of arrays and tables. -/
def value [Scalar α] : (budget : Nat) → Rule (Value α)
  | 0, c => failAt .invalidValue c.offset
  | budget + 1, c =>
    match h : c.rest with
    | '"' :: '"' :: '"' :: _ => (linesText '"' c).map (·.map .text)
    | '\'' :: '\'' :: '\'' :: _ => (linesText '\'' c).map (·.map .text)
    | '"' :: _ => (quotedText '"' c).map (·.map .text)
    | '\'' :: _ => (quotedText '\'' c).map (·.map .text)
    | '[' :: rest =>
      match arrayAfterOpen (value budget) ⟨rest, c.offset + 1⟩ with
      | .error e => .error e
      | .ok got => .ok (got.after (by simp [h]))
    | '\x7b' :: rest =>
      match tableAfterOpen (value budget) ⟨rest, c.offset + 1⟩ with
      | .error e => .error e
      | .ok got => .ok (got.after (by simp [h]))
    | _ => literal c

/-! ## Statements -/

/-- What a statement does to the document and to the header of its section. -/
abbrev Progress (α : Type) := Draft α × Key

/-- The header of a table, behind its bracket, or of an item of an array, behind both brackets. -/
def headerAfterOpen (item : Bool) (d : Draft α) : Rule (Progress α) := fun c =>
  match key (skipSpaces c) with
  | .error e => .error e
  | .ok k =>
    let opened := if item then d.endSection.openItem k.value else d.endSection.openTable k.value
    match atOffset k.next.offset opened with
    | .error e => .error e
    | .ok d =>
      let closing := if item then [']', ']'] else [']']
      if closing.isPrefixOf k.next.rest then
        .ok ⟨(d, k.value), k.next.advance closing.length, by
          have h1 := k.shorter
          have h2 := skipSpaces_le c
          simp only [Cursor.advance, List.length_drop]; omega⟩
      else failAt (if item then .unclosedArrayHeader else .unclosedHeader) k.next.offset

/-- A statement that starts at the cursor; a comment or an empty line is none. -/
def statement [Scalar α] (budget : Nat) (s : Progress α) : Rule (Progress α) := fun c =>
  match h : c.rest with
  | '[' :: '[' :: rest =>
    (headerAfterOpen true s.1 ⟨rest, c.offset + 2⟩).map (·.after (by simp [h]; omega))
  | '[' :: rest =>
    (headerAfterOpen false s.1 ⟨rest, c.offset + 1⟩).map (·.after (by simp [h]))
  | ch :: _ =>
    if isBareChar ch || ch == '"' || ch == '\'' then
      match pair (value budget) c with
      | .error e => .error e
      | .ok p => (atOffset p.next.offset (s.1.addValue s.2 p.value.1 p.value.2)).map fun d =>
          p.map fun _ => (d, s.2)
    else failAt .invalidStatement c.offset
  | [] => failAt .invalidStatement c.offset

/-- The end of a line behind a statement: a comment if there is one, and a newline. -/
def lineEnd (c : Cursor Char) :
    Except ReadError { d : Cursor Char // d.rest.length ≤ c.rest.length } :=
  let start := skipSpaces c
  have hs : start.rest.length ≤ c.rest.length := skipSpaces_le c
  let comment : Except ReadError Nat := match start.rest with
    | '#' :: rest => (commentBody start.offset rest).map (·.length + 1)
    | _ => .ok 0
  match comment with
  | .error e => .error e
  | .ok n =>
    have hd : (start.advance n).rest.length ≤ start.rest.length := by
      simp only [Cursor.advance, List.length_drop]; omega
    match h : (start.advance n).rest with
    | [] => .ok ⟨start.advance n, Nat.le_trans hd hs⟩
    | '\n' :: rest => .ok ⟨⟨rest, (start.advance n).offset + 1⟩, by
        simp only [h, List.length_cons] at hd ⊢; omega⟩
    | _ => failAt .noLineEnd (start.advance n).offset

/-- Reads statements up to the end of the text. -/
def statements [Scalar α] (budget : Nat) (s : Progress α) (c : Cursor Char) :
    Except ReadError (Table α) :=
  let start := skipSpaces c
  have hs : start.rest.length ≤ c.rest.length := skipSpaces_le c
  match h : start.rest with
  | [] => .ok s.1.root
  | '\n' :: rest =>
    have : rest.length < c.rest.length := by simp only [h, List.length_cons] at hs; omega
    statements budget s ⟨rest, start.offset + 1⟩
  | '#' :: rest =>
    match commentBody start.offset rest with
    | .error e => .error e
    | .ok body =>
      have : rest.length - body.length < c.rest.length := by
        simp only [h, List.length_cons] at hs; omega
      statements budget s ⟨rest.drop body.length, start.offset + 1 + body.length⟩
  | _ =>
    match statement budget s start with
    | .error e => .error e
    | .ok got =>
      match lineEnd got.next with
      | .error e => .error e
      | .ok ⟨next, hn⟩ =>
        have : next.rest.length < c.rest.length := by have := got.shorter; omega
        statements budget got.value next
termination_by c.rest.length

/-- Ends lines that end by a return and a newline by the newline alone. -/
def plainLines : List Char → List Char
  | '\r' :: '\n' :: rest => '\n' :: plainLines rest
  | c :: rest => c :: plainLines rest
  | [] => []

end Reader

/-- Reads a configuration file. -/
def read {α : Type} [Scalar α] (cs : List Char) : Except ReadError (Table α) :=
  Reader.statements (cs.length + 1) (Draft.empty, []) ⟨cs, 0⟩

end FormulaGraph.Toml
