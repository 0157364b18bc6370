import FormulaGraph.Text.Basic
/-!
# Sorted names

Names are compared by the numbers of their code points, from the first one on.
-/
namespace FormulaGraph.Text

/-- The numbers of the code points, which tell texts apart (`CodePoint.ofNat_toNat`). -/
def numbers (t : Text) : List Nat := t.points.map CodePoint.toNat

def sorted (names : List Text) : List Text :=
  names.mergeSort fun a b => !b.numbers.lex a.numbers

/-- The distinct names in increasing order. -/
def sortedUnique (names : List Text) : List Text := sorted names.eraseDups

end FormulaGraph.Text
