/-!
# Random draws

The Mersenne Twister with a state of 624 words of 32 bits, started from a whole number: the key is
the magnitude of the seed in words, the lowest first. A draw takes two outputs and is a natural
below `2 ^ 53` whose upper 27 bits are those of the first.
-/
namespace FormulaGraph

/-- The state words, and how many of them have been given out. -/
structure Twister where
  words : Array UInt32
  used : Nat

namespace Twister

def size : Nat := 624

/-- The distance between words that are mixed with each other. -/
def offset : Nat := 397

def word (ws : Array UInt32) (i : Nat) : UInt32 := ws.getD (i % size) 0

/-- The words of a number, the lowest first; zero has one. -/
def wordsOf (n : Nat) : List UInt32 :=
  if n < 0x100000000 then [UInt32.ofNat n]
  else UInt32.ofNat (n % 0x100000000) :: wordsOf (n / 0x100000000)
termination_by n

/-- The state grown from one word. -/
def grow (seed : UInt32) : Array UInt32 :=
  (List.range (size - 1)).foldl (fun ws i =>
    let previous := word ws i
    ws.push ((previous ^^^ (previous >>> 30)) * 1812433253 + UInt32.ofNat (i + 1))) #[seed]

/-- The position behind `i` in the cycle of all words but the first. -/
def following (i : Nat) : Nat := if i + 1 < size then i + 1 else 1

/-- Replaces word `i` by a mix of itself with the word before it; the last word goes to the front
too. -/
def mix (factor : UInt32) (combine : UInt32 → UInt32) (ws : Array UInt32) (i : Nat) :
    Array UInt32 :=
  let previous := word ws (i - 1)
  let mixed := combine (word ws i ^^^ ((previous ^^^ (previous >>> 30)) * factor))
  let ws := ws.setIfInBounds i mixed
  if i + 1 < size then ws else ws.setIfInBounds 0 mixed

/-- The state for a key of words. -/
def ofKey (key : Array UInt32) : Twister :=
  let (ws, position) := (List.range (max size key.size)).foldl (fun (ws, i) step =>
    let j := step % key.size
    (mix 1664525 (fun x => x + key.getD j 0 + UInt32.ofNat j) ws i, following i))
    (grow 19650218, 1)
  let (ws, _) := (List.range (size - 1)).foldl (fun (ws, i) _ =>
    (mix 1566083941 (fun x => x - UInt32.ofNat i) ws i, following i)) (ws, position)
  ⟨ws.setIfInBounds 0 0x80000000, size⟩

def ofSeed (seed : Int) : Twister := ofKey (wordsOf seed.natAbs).toArray

/-- All words renewed. -/
def renew (ws : Array UInt32) : Array UInt32 :=
  (List.range size).foldl (fun ws k =>
    let y := (word ws k &&& 0x80000000) ||| (word ws (k + 1) &&& 0x7fffffff)
    let flip : UInt32 := if y &&& 1 = 0 then 0 else 0x9908b0df
    ws.setIfInBounds k (word ws (k + offset) ^^^ (y >>> 1) ^^^ flip)) ws

/-- The output made of a state word. -/
def temper (y : UInt32) : UInt32 :=
  let y := y ^^^ (y >>> 11)
  let y := y ^^^ ((y <<< 7) &&& 0x9d2c5680)
  let y := y ^^^ ((y <<< 15) &&& 0xefc60000)
  y ^^^ (y >>> 18)

/-- The next 32 bits. -/
def output (t : Twister) : UInt32 × Twister :=
  let t := if t.used < size then t else ⟨renew t.words, 0⟩
  (temper (word t.words t.used), { t with used := t.used + 1 })

/-- The next 53 bits. -/
def draw (t : Twister) : Nat × Twister :=
  let (a, t) := t.output
  let (b, t) := t.output
  ((a >>> 5).toNat * Nat.pow 2 26 + (b >>> 6).toNat, t)

end Twister

end FormulaGraph
