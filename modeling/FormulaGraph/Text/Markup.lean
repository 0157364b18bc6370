import FormulaGraph.Text.Basic
/-!
# Text inside markup

Printed lines are markup: a bracket that opens with a letter, `#`, `/` or `@` and is closed before
the next opening bracket is a style tag. Text from a document is escaped before it is put into a
line. Each tag-like bracket, with the backslashes in front of it, is written with these backslashes
doubled and one more, so it prints as it stands; and a text that ends in a single backslash gets a
second one, so it does not escape what follows.
-/
namespace FormulaGraph.Text

/-- Whether a bracket that opens with this character is a tag. -/
def opensTag (c : Char) : Bool := ('a' ≤ c && c ≤ 'z') || c == '#' || c == '/' || c == '@'

/-- Whether the text after an opening bracket makes it a tag. -/
def startsTag : List CodePoint → Bool
  | [] => false
  | first :: rest =>
    first.holds opensTag &&
      (rest.dropWhile fun p => p ≠ .char '[' ∧ p ≠ .char ']').head? == some (.char ']')

/-- Escapes the tags; `slashes` counts the backslashes just read. -/
def escapeTags (slashes : Nat) : List CodePoint → List CodePoint
  | [] => List.replicate slashes (.char '\\')
  | .char '\\' :: rest => escapeTags (slashes + 1) rest
  | .char '[' :: rest =>
    List.replicate (if startsTag rest then 2 * slashes + 1 else slashes) (.char '\\') ++
      .char '[' :: escapeTags 0 rest
  | p :: rest => List.replicate slashes (.char '\\') ++ p :: escapeTags 0 rest

/-- Whether the text ends in exactly one backslash. -/
def endsInOneBackslash (ps : List CodePoint) : Bool :=
  match ps.reverse with
  | .char '\\' :: .char '\\' :: _ => false
  | .char '\\' :: _ => true
  | _ => false

/-- The text with everything that looks like a tag escaped. -/
def escapeMarkup (t : Text) : Text :=
  let escaped := escapeTags 0 t.points
  ⟨if endsInOneBackslash escaped then escaped ++ [.char '\\'] else escaped⟩

end FormulaGraph.Text
