import FormulaGraph.Text.Basic
import FormulaGraph.Text.Hex
/-!
# Texts in files

Files hold UTF-8, which has bytes for every character and none for half of a surrogate pair. A text
with such a half cannot be written; `EncodeFault` says where it is.
-/
namespace FormulaGraph.Text

/-- Halves of pairs side by side that keep a text from being written. -/
structure EncodeFault where
  /-- The first of them. -/
  point : CodePoint
  offset : Nat
  count : Nat
  deriving DecidableEq, Repr

def EncodeFault.message (e : EncodeFault) : String :=
  let shown := String.ofList ('\\' :: 'u' :: hex 4 e.point.toNat)
  let place :=
    if e.count = 1 then s!"character '{shown}' in position {e.offset}"
    else s!"characters in position {e.offset}-{e.offset + e.count - 1}"
  s!"'utf-8' codec can't encode {place}: surrogates not allowed"

/-- The first place where a text cannot be written. -/
def encodeFault? (t : Text) : Option EncodeFault :=
  let fine := t.points.takeWhile (!·.isHalf)
  let rest := t.points.dropWhile (!·.isHalf)
  rest.head?.map fun p => ⟨p, fine.length, (rest.takeWhile (·.isHalf)).length⟩

/-- The string that a text is in a file. -/
def encode (t : Text) : Except EncodeFault String :=
  match t.encodeFault? with
  | some e => .error e
  | none => .ok (String.ofList (t.points.filterMap (·.char?)))

end FormulaGraph.Text
