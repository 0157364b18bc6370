/-!
# Places in a text

A cursor is what is still to read of a text, with the offset of its first symbol. A symbol is a
code point where the text may hold any, or a character. Offsets count symbols from 0, lines and
columns count from 1. What a reader gives comes as a `Got`: a value, and a cursor that has moved on,
so that readers can be repeated until the text ends.
-/
namespace FormulaGraph

/-- A place in a text of symbols `σ`: what is still to read, and the offset of its first symbol. -/
structure Cursor (σ : Type) where
  rest : List σ
  offset : Nat

namespace Cursor

variable {σ : Type}

/-- The cursor behind the next `n` symbols. -/
def advance (c : Cursor σ) (n : Nat) : Cursor σ := ⟨c.rest.drop n, c.offset + n⟩

/-- The cursor behind the symbols with a property. -/
def skipWhile (p : σ → Bool) (c : Cursor σ) : Cursor σ :=
  ⟨c.rest.dropWhile p, c.offset + (c.rest.takeWhile p).length⟩

theorem skipWhile_le (p : σ → Bool) (c : Cursor σ) :
    (c.skipWhile p).rest.length ≤ c.rest.length :=
  (List.dropWhile_sublist p).length_le

end Cursor

/-- A value of type `β` read at `c`, and the cursor behind it. -/
structure Got {σ : Type} (β : Type) (c : Cursor σ) where
  value : β
  next : Cursor σ
  shorter : next.rest.length < c.rest.length

namespace Got

variable {σ β γ : Type}

/-- Moves on by `n` symbols, at least one. -/
def advance (c : Cursor σ) (n : Nat) (value : β) (h : c.rest ≠ []) : Got β c :=
  ⟨value, c.advance (max n 1), by
    have : 0 < c.rest.length := List.length_pos_iff.2 h
    simp only [Cursor.advance, List.length_drop]; omega⟩

/-- Lets a reader that started at a later cursor count from an earlier one. -/
def after {c d : Cursor σ} (g : Got β d) (h : d.rest.length ≤ c.rest.length) : Got β c :=
  ⟨g.value, g.next, Nat.lt_of_lt_of_le g.shorter h⟩

def map {c : Cursor σ} (f : β → γ) (g : Got β c) : Got γ c := ⟨f g.value, g.next, g.shorter⟩

end Got

namespace Text

/-- Line and column of an offset in a text with the given symbol between its lines. -/
def lineAndColumn {σ : Type} [DecidableEq σ] (newline : σ) (text : List σ) (offset : Nat) :
    Nat × Nat :=
  let before := text.take offset
  (before.count newline + 1, (before.reverse.takeWhile (· ≠ newline)).length + 1)

end Text

end FormulaGraph
