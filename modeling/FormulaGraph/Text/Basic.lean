/-!
# Texts

A text is a sequence of code points: characters, and halves of UTF-16 surrogate pairs that stand
without their other half. A document may name such a half by its number, and from there it goes
through names, messages and documents like any character. Only a file of UTF-8 text cannot hold it
(`FormulaGraph.Text.Utf8`).

A string stands for the text of its characters wherever a text is wanted.
-/
namespace FormulaGraph

/-- What a text consists of. -/
inductive CodePoint where
  | char (c : Char)
  /-- Half of a surrogate pair, by its distance from the first of all halves. -/
  | half (distance : Fin 0x800)
  deriving DecidableEq, Repr

namespace CodePoint

/-- The number of the first half of a surrogate pair. -/
def firstHalf : Nat := 0xd800

def toNat : CodePoint → Nat
  | .char c => c.toNat
  | .half distance => firstHalf + distance

/-- The code point of a number up to that of the last character. -/
def ofNat (n : Nat) : CodePoint :=
  if h : firstHalf ≤ n ∧ n < firstHalf + 0x800 then .half ⟨n - firstHalf, by omega⟩
  else .char (Char.ofNat n)

theorem toNat_ofNat {n : Nat} (h : n < 0x110000) : (ofNat n).toNat = n := by
  unfold ofNat
  split
  · rename_i hn
    simp only [toNat]
    omega
  · rename_i hn
    have hvalid : n.isValidChar := by
      simp only [Nat.isValidChar, firstHalf] at hn ⊢
      omega
    have hchar : Char.ofNat n = Char.ofNatAux n hvalid := dif_pos hvalid
    rw [hchar]
    rfl

theorem ofNat_toNat (p : CodePoint) : ofNat p.toNat = p := by
  cases p with
  | char c =>
    have hvalid : ¬(firstHalf ≤ c.toNat ∧ c.toNat < firstHalf + 0x800) := by
      have h : c.toNat < 0xd800 ∨ 0xdfff < c.toNat ∧ c.toNat < 0x110000 := c.valid
      simp only [firstHalf]
      omega
    simp [toNat, ofNat, hvalid]
  | half distance => simp [toNat, ofNat]

/-- The character, unless it is half of a pair. -/
def char? : CodePoint → Option Char
  | .char c => some c
  | .half _ => none

def isHalf : CodePoint → Bool
  | .char _ => false
  | .half _ => true

/-- Whether this is a character with a property. -/
def holds (p : Char → Bool) : CodePoint → Bool
  | .char c => p c
  | .half _ => false

instance : Coe Char CodePoint := ⟨.char⟩

end CodePoint

structure Text where
  points : List CodePoint
  deriving DecidableEq, Repr

namespace Text

def ofChars (cs : List Char) : Text := ⟨cs.map .char⟩

def ofString (s : String) : Text := ofChars s.toList

instance : Coe String Text := ⟨ofString⟩

instance : Inhabited Text := ⟨""⟩

/-- The text of one code point. -/
def singleton (p : CodePoint) : Text := ⟨[p]⟩

instance : Append Text := ⟨fun s t => ⟨s.points ++ t.points⟩⟩

theorem points_append (s t : Text) : (s ++ t).points = s.points ++ t.points := rfl

/-- Texts one after the other, with a separator between them. -/
def joined (separator : Text) (ts : List Text) : Text :=
  ⟨separator.points.intercalate (ts.map (·.points))⟩

def length (t : Text) : Nat := t.points.length

def isEmpty (t : Text) : Bool := t.points.isEmpty

/-- The characters, unless the text holds half of a pair. -/
def chars? (t : Text) : Option (List Char) := t.points.mapM CodePoint.char?

theorem chars?_ofChars (cs : List Char) : (ofChars cs).chars? = some cs := by
  induction cs with
  | nil => rfl
  | cons c rest ih =>
    simp only [chars?, ofChars] at ih ⊢
    simp [List.mapM_cons, ih, CodePoint.char?]

/-- The string of the characters, unless the text holds half of a pair. -/
def string? (t : Text) : Option String := t.chars?.map String.ofList

/-- The characters with a property at the start of code points. -/
def charsWhile (p : Char → Bool) : List CodePoint → List Char
  | .char c :: rest => if p c then c :: charsWhile p rest else []
  | _ => []

end Text

end FormulaGraph
