import FormulaGraph.Text.Basic
import FormulaGraph.Text.Blank
/-!
# Tokens of the expression language

An expression is a sequence of names, unsigned decimal literals, the four operators and parentheses,
with blanks between them where the writer likes.

**Longest match.** A name is a letter or underscore and all name characters behind it; a literal is
a run of digits and points. A literal has one point at most and a digit at least, and no name
character may follow it. Letters and digits are those of ASCII.

**Positions** count characters from the start of the text. The end of the text is not a token of its
own: where a list of tokens is empty the reader is at the end.
-/
namespace FormulaGraph

inductive Operator where
  | add | sub | mul | div
  deriving DecidableEq, Repr

namespace Operator

def symbol : Operator → Char
  | .add => '+'
  | .sub => '-'
  | .mul => '*'
  | .div => '/'

def ofChar? : Char → Option Operator
  | '+' => some .add
  | '-' => some .sub
  | '*' => some .mul
  | '/' => some .div
  | _ => none

end Operator

/-- What a token is, with the text that matters. -/
inductive Lexeme where
  | number (text : Text)
  | name (text : Text)
  | operator (op : Operator)
  | openParen
  | closeParen
  deriving DecidableEq, Repr

def Lexeme.text : Lexeme → Text
  | .number t => t
  | .name t => t
  | .operator op => .singleton op.symbol
  | .openParen => "("
  | .closeParen => ")"

/-- A lexeme and the position of its first character. -/
structure Token where
  lexeme : Lexeme
  position : Nat
  deriving DecidableEq, Repr

def Token.text (t : Token) : Text := t.lexeme.text

/-- Why a text is not an expression. -/
inductive ParseFault where
  | malformedNumber (text : Text)
  | characterAfterNumber (text : Text)
  | invalidCharacter (text : Text)
  | empty
  | unexpectedEnd
  | unexpectedToken (text : Text)
  | missingClose
  | unmatchedClose
  | tooDeep
  deriving DecidableEq, Repr

def ParseFault.message : ParseFault → Text
  | .malformedNumber text => "Malformed number '" ++ text ++ "'"
  | .characterAfterNumber text => "Unexpected character '" ++ text ++ "' after number"
  | .invalidCharacter text => "Invalid character '" ++ text ++ "'"
  | .empty => "Empty expression"
  | .unexpectedEnd => "Unexpected end of expression"
  | .unexpectedToken text => "Unexpected token '" ++ text ++ "'"
  | .missingClose => "Missing ')'"
  | .unmatchedClose => "Unmatched ')'"
  | .tooDeep => "Expression nested too deeply"

/-- A fault and where in the text it is. -/
structure ParseError where
  fault : ParseFault
  position : Nat
  deriving DecidableEq, Repr

def ParseError.message (e : ParseError) : Text :=
  e.fault.message ++ s!" (at position {e.position})"

namespace Token

def isNumberChar (c : Char) : Bool := c.isDigit || c == '.'

def isNameStart (c : Char) : Bool := c == '_' || c.isAlpha

def isNameChar (c : Char) : Bool := c == '_' || c.isDigit || c.isAlpha

/-- Whether a run of digits and points is a literal. -/
def isLiteral (run : List CodePoint) : Bool := run.count (.char '.') ≤ 1 && run != [.char '.']

/-- The tokens of a text that starts at `position`. -/
def scan (position : Nat) (ps : List CodePoint) : Except ParseError (List Token) :=
  match ps with
  | [] => .ok []
  | p :: rest =>
    if p.holds Text.isBlank then scan (position + 1) rest
    else if p.holds isNumberChar then
      let run := p :: rest.takeWhile (·.holds isNumberChar)
      let after := rest.dropWhile (·.holds isNumberChar)
      if !isLiteral run then .error ⟨.malformedNumber ⟨run⟩, position⟩
      else match after.head?.filter (·.holds isNameChar) with
        | some q => .error ⟨.characterAfterNumber (.singleton q), position + run.length⟩
        | none => (scan (position + run.length) after).map (⟨.number ⟨run⟩, position⟩ :: ·)
    else if p.holds isNameStart then
      let run := p :: rest.takeWhile (·.holds isNameChar)
      let after := rest.dropWhile (·.holds isNameChar)
      (scan (position + run.length) after).map (⟨.name ⟨run⟩, position⟩ :: ·)
    else match p.char?.bind Operator.ofChar? with
      | some op => (scan (position + 1) rest).map (⟨.operator op, position⟩ :: ·)
      | none =>
        if p = '(' then (scan (position + 1) rest).map (⟨.openParen, position⟩ :: ·)
        else if p = ')' then (scan (position + 1) rest).map (⟨.closeParen, position⟩ :: ·)
        else .error ⟨.invalidCharacter (.singleton p), position⟩
termination_by ps.length
decreasing_by
  all_goals
    simp only [List.length_cons]
    have := (List.dropWhile_sublist (l := rest) (·.holds isNumberChar)).length_le
    have := (List.dropWhile_sublist (l := rest) (·.holds isNameChar)).length_le
    omega

end Token

/-- Splits an expression into tokens. -/
def tokenize (source : Text) : Except ParseError (List Token) := Token.scan 0 source.points

end FormulaGraph
