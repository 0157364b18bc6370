import FormulaGraph.Files.Access
import FormulaGraph.OrderedMap
/-!
# A table of files

The files of a directory tree by their places, with the directories that exist and the current one,
and a console.
A place is the list of names from the root on; a path is followed to its place step by step, so
every part of it but the last has to be a directory. A name has at most `longestName` bytes and the
text of a path at most `longestPath`.

**Missing directories** above a file are made from the bottom up: where one cannot be made because
its parent is missing, the parent is made first and then the directory once more. A directory that
exists already is no failure.
-/
namespace FormulaGraph

/-- The names on the way from the root. -/
abbrev Place := List Text

structure FileTable where
  files : OrderedMap Place String
  directories : List Place
  current : Place
  exportDate : Text
  ids : Nat → Text
  /-- The refusal of the console to print something. -/
  console : Printed → Option MarkupError := fun _ => none

namespace FileTable

def isDirectory (t : FileTable) (here : Place) : Bool := here ∈ t.directories

/-- The most bytes that a name may have. -/
def longestName : Nat := 255

/-- The most bytes that the text of a path may have. -/
def longestPath : Nat := 4095

/-- The place that a step from a directory leads to. -/
def step (t : FileTable) (here : Place) (part : Text) : Except FileFault Place :=
  if !t.isDirectory here then
    .error (if t.files.contains here then .notADirectory else .notFound)
  else if part = ".." then .ok here.dropLast
  else if longestName < Path.byteCount part then .error .nameTooLong
  else .ok (here ++ [part])

/-- The place of a path. -/
def follow (t : FileTable) (p : Path) : Except FileFault Place :=
  if longestPath < Path.byteCount p.text then .error .nameTooLong
  else p.parts.foldlM t.step (if p.isAbsolute then [] else t.current)

def isFile (t : FileTable) (p : Path) : Bool :=
  match t.follow p with
  | .ok place => t.files.contains place
  | .error _ => false

/-- The text of a file. -/
def text (t : FileTable) (p : Path) : Except FileFault String := do
  let place ← t.follow p
  match t.files.get? place with
  | some s => pure s
  | none => throw (if t.isDirectory place then .isDirectory else .notFound)

def read (t : FileTable) (p : Path) : Except FileError ByteArray :=
  match t.text p with
  | .ok s => .ok s.toUTF8
  | .error f => .error ⟨f, p⟩

/-- The table with a new directory at a path. -/
def makeOne (t : FileTable) (p : Path) : Except FileFault FileTable := do
  let place ← t.follow p
  if t.isDirectory place || t.files.contains place then throw .alreadyExists
  else pure { t with directories := place :: t.directories }

/-- The table with a directory at a path whose parent should exist. -/
def makeUnlessThere (t : FileTable) (p : Path) : Except FileFault FileTable :=
  match t.makeOne p with
  | .ok t => .ok t
  | .error f =>
    match t.follow p with
    | .ok place => if t.isDirectory place then .ok t else .error f
    | .error _ => .error f

/-- The table with a directory at a path, and with those above it; `depth` bounds their number. -/
def makeDirectory (t : FileTable) (p : Path) : (depth : Nat) → Except FileError FileTable
  | 0 => .error ⟨.notFound, p⟩
  | depth + 1 =>
    match t.makeUnlessThere p with
    | .ok t => .ok t
    | .error .notFound => do
      let t ← t.makeDirectory p.parent depth
      match t.makeUnlessThere p with
      | .ok t => pure t
      | .error f => throw ⟨f, p⟩
    | .error f => .error ⟨f, p⟩

/-- The table with a text at a path. -/
def write (t : FileTable) (p : Path) (s : String) : Except FileError FileTable := do
  let t ← t.makeDirectory p.parent (p.parts.length + 1)
  match t.follow p with
  | .error f => throw ⟨f, p⟩
  | .ok place =>
    if t.isDirectory place then throw ⟨.isDirectory, p⟩
    else pure { t with files := t.files.insert place s }

instance : Surroundings (StateM FileTable) where
  currentDirectory := do pure ⟨"/", (← get).current⟩
  isFile p := do pure ((← get).isFile p)
  read p := do pure ((← get).read p)
  write p s := do
    match (← get).write p s with
    | .ok t =>
      set t
      pure (.ok ())
    | .error e => pure (.error e)
  exportDate := do pure (← get).exportDate
  freshIds := do pure (← get).ids
  refusal? p := do pure ((← get).console p)

end FileTable

end FormulaGraph
