import FormulaGraph.Json.Value
import FormulaGraph.Text.Cursor
/-!
# Reading documents

A text is read as one value with blanks around it. Blanks are the space, tab, newline and return.
Besides the values of the standard format the words `NaN`, `Infinity` and `-Infinity` are read as
numbers. A number without fraction and power is whole, so `-0` is the whole number zero.

**Errors.** The first fault from the left ends the reading, located by its line, its column and its
offset in code points. A whole number of more than `Numeral.maxDigits` digits is refused as too
long, which is not a fault of the format.

**Recursion.** A cursor is the rest of the text and its offset. Every rule leaves a rest shorter
than it got, so lists and objects end with their text; values are nested at most as deep as the text
is long, and `budget` counts these levels.
-/
namespace FormulaGraph.Json

/-- What is wrong in a text that is no document. -/
inductive Fault where
  | byteOrderMark
  | expectingValue
  | expectingName
  | expectingColon
  | expectingComma
  | unterminatedText
  | controlCharacter
  | invalidEscape
  | invalidCodeEscape
  | extraData
  deriving DecidableEq, Repr

def Fault.message : Fault → String
  | .byteOrderMark => "Unexpected UTF-8 BOM (decode using utf-8-sig)"
  | .expectingValue => "Expecting value"
  | .expectingName => "Expecting property name enclosed in double quotes"
  | .expectingColon => "Expecting ':' delimiter"
  | .expectingComma => "Expecting ',' delimiter"
  | .unterminatedText => "Unterminated string starting at"
  | .controlCharacter => "Invalid control character at"
  | .invalidEscape => "Invalid \\escape"
  | .invalidCodeEscape => "Invalid \\uXXXX escape"
  | .extraData => "Extra data"

/-- Why a text could not be read. -/
inductive ReadError where
  | fault (f : Fault) (offset : Nat)
  | numberTooLong (digits : Nat)
  deriving DecidableEq, Repr

/-- A fault with its place. -/
def Fault.located (f : Fault) (text : Text) (offset : Nat) : String :=
  let (line, column) := Text.lineAndColumn (.char '\n') text.points offset
  s!"{f.message}: line {line} column {column} (char {offset})"

namespace Reader

variable {α : Type}

/-- A place in the text of a document. -/
abbrev Position := Cursor CodePoint

abbrev Rule (β : Type) := (c : Position) → Except ReadError (Got β c)

def isSpace (c : Char) : Bool := c == ' ' || c == '\t' || c == '\n' || c == '\r'

/-- The cursor behind the blanks. -/
def skip (c : Position) : Position := c.skipWhile (·.holds isSpace)

theorem skip_le (c : Position) : (skip c).rest.length ≤ c.rest.length := c.skipWhile_le _

def failAt {β : Type} (f : Fault) (offset : Nat) : Except ReadError β := .error (.fault f offset)

/-! ## Texts -/

/-- The number that four hexadecimal digits at the start stand for. -/
def code? : List CodePoint → Option Nat
  | .char a :: .char b :: .char c :: .char d :: _ => do
    let a ← Text.hexValue? a
    let b ← Text.hexValue? b
    let c ← Text.hexValue? c
    let d ← Text.hexValue? d
    return ((a * 16 + b) * 16 + c) * 16 + d
  | _ => none

def isHighSurrogate (n : Nat) : Bool := 0xd800 ≤ n && n < 0xdc00

def isLowSurrogate (n : Nat) : Bool := 0xdc00 ≤ n && n < 0xe000

/-- The character that two surrogates stand for together. -/
def joinSurrogates (high low : Nat) : Char :=
  Char.ofNat (0x10000 + (high - 0xd800) * 0x400 + (low - 0xdc00))

/-- The character that an escape letter stands for. -/
def escaped? : Char → Option Char
  | '"' => some '"'
  | '\\' => some '\\'
  | '/' => some '/'
  | 'b' => some '\x08'
  | 'f' => some '\x0c'
  | 'n' => some '\n'
  | 'r' => some '\r'
  | 't' => some '\t'
  | _ => none

/-- The four digits behind `\u` and how many symbols they take, with a second escape that
completes a pair of surrogates; `offset` is that of the `u`. -/
def codeEscape (rest : List CodePoint) (offset : Nat) : Except ReadError (CodePoint × Nat) :=
  -- A closing quote has to follow somewhere, so four digits at the very end are not enough.
  if rest.length ≤ 4 then failAt .invalidCodeEscape offset
  else match code? rest with
    | none => failAt .invalidCodeEscape offset
    | some high =>
      match rest.drop 4 with
      | .char '\\' :: .char 'u' :: second =>
        if isHighSurrogate high ∧ 4 < second.length then
          match code? second with
          | none => failAt .invalidCodeEscape (offset + 6)
          | some low =>
            if isLowSurrogate low then .ok (joinSurrogates high low, 10)
            else .ok (.ofNat high, 4)
        else .ok (.ofNat high, 4)
      | _ => .ok (.ofNat high, 4)

/-- The code points of a text up to its closing quote; `start` is the offset of the opening one. -/
def textBody (start offset : Nat) (acc ps : List CodePoint) :
    Except ReadError { r : List CodePoint × Position // r.2.rest.length < ps.length } :=
  match ps with
  | [] => failAt .unterminatedText start
  | .char '"' :: rest => .ok ⟨(acc.reverse, ⟨rest, offset + 1⟩), by simp⟩
  | .char '\\' :: [] => failAt .unterminatedText start
  | .char '\\' :: .char 'u' :: digits =>
    match codeEscape digits (offset + 1) with
    | .error e => .error e
    | .ok (p, n) =>
      match textBody start (offset + 2 + n) (p :: acc) (digits.drop n) with
      | .error e => .error e
      | .ok ⟨r, h⟩ => .ok ⟨r, by simp only [List.length_drop, List.length_cons] at h ⊢; omega⟩
  | .char '\\' :: e :: rest =>
    match e.char?.bind escaped? with
    | none => failAt .invalidEscape offset
    | some ch =>
      match textBody start (offset + 2) (ch :: acc) rest with
      | .error e => .error e
      | .ok ⟨r, h⟩ => .ok ⟨r, by simp only [List.length_cons]; omega⟩
  | p :: rest =>
    if p.toNat ≤ 0x1f then failAt .controlCharacter offset
    else
      match textBody start (offset + 1) (p :: acc) rest with
      | .error e => .error e
      | .ok ⟨r, h⟩ => .ok ⟨r, by simp only [List.length_cons]; omega⟩
termination_by ps.length
decreasing_by
  all_goals simp only [List.length_drop, List.length_cons]; omega

/-- The rest of a text behind its opening quote, which is at `start`. -/
def textAfterQuote (start : Nat) : Rule Text := fun c =>
  match textBody start c.offset [] c.rest with
  | .error e => .error e
  | .ok ⟨(ps, next), h⟩ => .ok ⟨⟨ps⟩, next, h⟩

/-! ## Numbers and words -/

/-- The value of a word at the start of the text, if it is one. -/
def word? [Scalar α] (ps : List CodePoint) : Option (Nat × Json α) :=
  [(("null" : Text), Json.null), ("true", .bool true), ("false", .bool false),
    ("NaN", .real Scalar.nan), ("Infinity", .real (Scalar.ofSpecial .infinity)),
    ("-Infinity", .real (Scalar.ofSpecial .negInfinity))].findSome? fun (w, v) =>
      if w.points.isPrefixOf ps then some (w.length, v) else none

/-- The digits of a whole number: a zero alone, or digits that start with another one. -/
def wholeDigits : List Char → List Char
  | '0' :: _ => ['0']
  | cs => cs.takeWhile Char.isDigit

/-- The digits behind a point, if a digit follows it. -/
def fractionDigits : List Char → List Char
  | '.' :: rest => rest.takeWhile Char.isDigit
  | _ => []

/-- A power of ten, if it is complete: how many characters it takes, and its value. -/
def power? : List Char → Option (Nat × Int)
  | e :: rest =>
    if e = 'e' ∨ e = 'E' then
      let (negative, signLength) : Bool × Nat := match rest with
        | '-' :: _ => (true, 1)
        | '+' :: _ => (false, 1)
        | _ => (false, 0)
      let digits := (rest.drop signLength).takeWhile Char.isDigit
      if digits = [] then none
      else
        let n : Int := Decimal.digitsValue digits
        some (1 + signLength + digits.length, if negative then -n else n)
    else none
  | [] => none

/-- Whether a character may be part of a number. -/
def isNumberChar (c : Char) : Bool := c.isDigit || c ∈ ['-', '+', '.', 'e', 'E']

/-- A number at the start of the characters, and how many of them it takes. -/
def number? [Scalar α] (cs : List Char) : Option (Nat × Except ReadError (Json α)) :=
  let negative := cs.head? == some '-'
  let signLength := if negative then 1 else 0
  let unsigned := cs.drop signLength
  let whole := wholeDigits unsigned
  if whole = [] then none
  else
    let afterWhole := unsigned.drop whole.length
    let fraction := fractionDigits afterWhole
    let fractionLength := if fraction = [] then 0 else fraction.length + 1
    let wholeLength := signLength + whole.length + fractionLength
    match power? (afterWhole.drop fractionLength), fraction with
    | none, [] =>
      if Numeral.maxDigits < whole.length then
        some (wholeLength, .error (.numberTooLong whole.length))
      else
        let n : Int := Decimal.digitsValue whole
        some (wholeLength, .ok (.int (if negative then -n else n)))
    | power, _ =>
      let (powerLength, exponent) := power.getD (0, 0)
      some (wholeLength + powerLength,
        .ok (.real (Scalar.ofDecimal (Numeral.ofDigits negative whole fraction exponent))))

def wordOrNumber [Scalar α] : Rule (Json α) := fun c =>
  if h : c.rest = [] then failAt .expectingValue c.offset
  else match word? c.rest with
    | some (n, v) => .ok (.advance c n v h)
    | none =>
      match number? (Text.charsWhile isNumberChar c.rest) with
      | some (n, .ok v) => .ok (.advance c n v h)
      | some (_, .error e) => .error e
      | none => failAt .expectingValue c.offset

/-! ## Lists and objects -/

/-- What stands behind an item, after blanks: the closing character or a comma. -/
inductive Mark where
  | close | comma | other

/-- The mark behind an item and the cursor behind the mark, or the cursor at what is no mark. -/
def mark (closing : Char) (c : Position) : Mark × Position :=
  match (skip c).rest with
  | p :: rest =>
    if p = closing then (.close, ⟨rest, (skip c).offset + 1⟩)
    else if p = ',' then (.comma, ⟨rest, (skip c).offset + 1⟩)
    else (.other, skip c)
  | [] => (.other, skip c)

theorem mark_le (closing : Char) (c : Position) :
    (mark closing c).2.rest.length ≤ c.rest.length := by
  have hs := skip_le c
  unfold mark
  split
  · rename_i ch rest h
    rw [h, List.length_cons] at hs
    split
    · exact Nat.le_of_succ_le hs
    · split
      · exact Nat.le_of_succ_le hs
      · exact skip_le c
  · exact hs

/-- Items separated by commas up to the closing character; `acc` holds the earlier ones, last first.
-/
def items {β : Type} (closing : Char) (item : Rule β) (acc : List β) (c : Position) :
    Except ReadError (Got (List β) c) :=
  match item c with
  | .error e => .error e
  | .ok got =>
    have hg := got.shorter
    have hm := mark_le closing got.next
    match h : mark closing got.next with
    | (.close, next) => .ok ⟨(got.value :: acc).reverse, next, by simp only [h] at hm; omega⟩
    | (.other, next) => failAt .expectingComma next.offset
    | (.comma, next) =>
      have hk := skip_le next
      have hlt : (skip next).rest.length < c.rest.length := by simp only [h] at hm; omega
      match items closing item (got.value :: acc) (skip next) with
      | .error e => .error e
      | .ok more => .ok (more.after (Nat.le_of_lt hlt))
termination_by c.rest.length

/-- The cursor behind the closing character when it stands at once. -/
def emptyUpTo? (closing : Char) (c : Position) :
    Option { d : Position // d.rest.length < c.rest.length } :=
  match h : c.rest with
  | [] => none
  | p :: rest => if p = closing then some ⟨⟨rest, c.offset + 1⟩, by simp⟩ else none

/-- The rest of a list behind its opening bracket. -/
def listAfterOpen {β : Type} (item : Rule β) : Rule (List β) := fun c =>
  match emptyUpTo? ']' (skip c) with
  | some ⟨next, h⟩ => .ok ⟨[], next, Nat.lt_of_lt_of_le h (skip_le c)⟩
  | none =>
    match items ']' item [] (skip c) with
    | .error e => .error e
    | .ok got => .ok (got.after (skip_le c))

/-- A field: its name, a colon and its value. -/
def field {β : Type} (value : Rule β) : Rule (Text × β) := fun c =>
  match h : c.rest with
  | .char '"' :: rest =>
    match textAfterQuote c.offset ⟨rest, c.offset + 1⟩ with
    | .error e => .error e
    | .ok name =>
      have hn := name.shorter
      have hs := skip_le name.next
      match h' : (skip name.next).rest with
      | .char ':' :: after =>
        let behind : Position := skip ⟨after, (skip name.next).offset + 1⟩
        have hb : behind.rest.length ≤ after.length := skip_le ⟨after, _⟩
        match value behind with
        | .error e => .error e
        | .ok v => .ok ⟨(name.value, v.value), v.next, by
            have hv := v.shorter
            simp only [h, h', List.length_cons] at hn hs ⊢
            omega⟩
      | _ => failAt .expectingColon (skip name.next).offset
  | _ => failAt .expectingName c.offset

def objectAfterOpen (value : Rule (Json α)) : Rule (Json α) := fun c =>
  match emptyUpTo? '\x7d' (skip c) with
  | some ⟨next, h⟩ => .ok ⟨.object [], next, Nat.lt_of_lt_of_le h (skip_le c)⟩
  | none =>
    match items '\x7d' (field value) [] (skip c) with
    | .error e => .error e
    | .ok got =>
      let fields := got.value.foldl (fun fs f => addField f.1 f.2 fs) []
      .ok ⟨.object fields, got.next, Nat.lt_of_lt_of_le got.shorter (skip_le c)⟩

/-- A value with at most `budget` levels of lists and objects. -/
def value [Scalar α] : (budget : Nat) → Rule (Json α)
  | 0, c => failAt .expectingValue c.offset
  | budget + 1, c =>
    match h : c.rest with
    | .char '"' :: rest =>
      match textAfterQuote c.offset ⟨rest, c.offset + 1⟩ with
      | .error e => .error e
      | .ok t => .ok ⟨.text t.value, t.next, by
          have := t.shorter
          simp only [h, List.length_cons] at this ⊢; omega⟩
    | .char '[' :: rest =>
      match listAfterOpen (value budget) ⟨rest, c.offset + 1⟩ with
      | .error e => .error e
      | .ok l => .ok ⟨.list l.value, l.next, by
          have := l.shorter
          simp only [h, List.length_cons] at this ⊢; omega⟩
    | .char '\x7b' :: rest =>
      match objectAfterOpen (value budget) ⟨rest, c.offset + 1⟩ with
      | .error e => .error e
      | .ok o => .ok ⟨o.value, o.next, by
          have := o.shorter
          simp only [h, List.length_cons] at this ⊢; omega⟩
    | _ => wordOrNumber c

end Reader

/-- Reads a document text. -/
def read {α : Type} [Scalar α] (text : Text) : Except ReadError (Json α) :=
  if text.points.head? = some (.char '\ufeff') then .error (.fault .byteOrderMark 0)
  else
    match Reader.value (text.length + 1) (Reader.skip ⟨text.points, 0⟩) with
    | .error e => .error e
    | .ok got =>
      let behind := Reader.skip got.next
      if behind.rest = [] then .ok got.value else .error (.fault .extraData behind.offset)

end FormulaGraph.Json
