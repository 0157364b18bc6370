import FormulaGraph.Text.Basic
/-!
# Paths

A path is a root, which is empty for a relative path, and the parts below it. Parts that say
nothing, empty ones and single points, are dropped where a path is read; two points are kept, since
where they lead depends on the files. Exactly two leading slashes are a root of their own.
-/
namespace FormulaGraph

structure Path where
  root : Text
  parts : List Text
  deriving DecidableEq, Repr

namespace Path

/-- The root that a number of leading slashes stands for. -/
def rootOf (slashes : Nat) : Text :=
  if slashes = 0 then "" else if slashes = 2 then "//" else "/"

/-- Splits a text at every slash. -/
def splitParts : List CodePoint → List Text
  | [] => [""]
  | .char '/' :: rest => "" :: splitParts rest
  | p :: rest =>
    match splitParts rest with
    | [] => [.singleton p]
    | part :: others => (.singleton p ++ part) :: others

def ofText (t : Text) : Path :=
  ⟨rootOf (t.points.takeWhile (· == .char '/')).length,
    (splitParts t.points).filter fun part => part ≠ "" ∧ part ≠ "."⟩

def text (p : Path) : Text :=
  if p.root = "" ∧ p.parts = [] then "." else p.root ++ .joined "/" p.parts

/-- Whether a name may hold the code point: the null character has no place in it, and half of a
surrogate pair only if it stands for a byte that is part of no character. -/
def isUsablePoint : CodePoint → Bool
  | .char c => c ≠ '\x00'
  | .half distance => 0x480 ≤ distance.val && distance.val < 0x500

/-- Whether the system can take the path. -/
def isUsable (p : Path) : Bool := p.parts.all fun part => part.points.all isUsablePoint

/-- How many bytes a name takes. -/
def byteCount (name : Text) : Nat :=
  name.points.foldl (fun n p =>
    match p with
    | .char c => n + c.utf8Size
    | .half _ => n + 1) 0

def isAbsolute (p : Path) : Bool := p.root ≠ ""

/-- The directory that a path is in. -/
def parent (p : Path) : Path := { p with parts := p.parts.dropLast }

/-- The path of `q` seen from `p`. -/
def join (p q : Path) : Path := if q.isAbsolute then q else { p with parts := p.parts ++ q.parts }

/-- The path with one more part. -/
def child (p : Path) (name : Text) : Path := { p with parts := p.parts ++ [name] }

/-- The directory itself and all directories above it, the nearest first. -/
def upwards (p : Path) : List Path :=
  (List.range (p.parts.length + 1)).map fun n =>
    { p with parts := p.parts.take (p.parts.length - n) }

end Path

end FormulaGraph
