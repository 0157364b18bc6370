import FormulaGraph.Command.Arguments
import FormulaGraph.Command.Run
import Std.Time.Format
/-!
# The program

Reads the arguments, runs the command on the files of the system, and prints what it has to say.
Tables, trees and panels are set out as plain lines of markup, which can always be printed.
-/
namespace FormulaGraph.Program

/-- The text as the system takes it; half of a surrogate pair becomes the replacement character. -/
def plain (t : Text) : String := String.ofList (t.points.map fun p => p.char?.getD '\ufffd')

/-! ## Files and time -/

/-- The fault that an error of the system stands for. -/
def faultOf : IO.Error → FileFault
  | .noFileOrDirectory .. => .notFound
  | .alreadyExists .. => .alreadyExists
  | .inappropriateType _ 20 _ => .notADirectory
  | .inappropriateType _ 21 _ => .isDirectory
  | e => .other 5 (toString e)

/-- Does something with a file. -/
def attempt {β : Type} (path : Path) (action : IO β) : IO (Except FileError β) := do
  try
    pure (.ok (← action))
  catch e => pure (.error ⟨faultOf e, path⟩)

/-- The present moment in universal time. -/
def now : IO String := do
  let moment ← Std.Time.Timestamp.now
  let wall := Std.Time.WallTime.ofTimestamp moment Std.Time.TimeZone.UTC.offset
  pure ((Std.Time.PlainDateTime.ofWallTime wall).format "uuuu-MM-dd'T'HH:mm:ss.SSSSSS'+00:00'")

/-- Ids that start from a random number. -/
def randomIds : IO (Nat → Text) := do
  let bytes ← IO.getRandomBytes 8
  let start := bytes.toList.foldl (fun n b => n * 256 + b.toNat) 0
  pure fun n => "node_" ++ String.ofList (Text.hex 16 ((start + n) % Nat.pow 2 64))

instance : Surroundings IO where
  currentDirectory := do pure (.ofText (← IO.currentDir).toString)
  isFile path := do
    match ← attempt path (IO.FS.readBinFile (plain path.text)) with
    | .ok _ => pure true
    | .error _ => pure false
  read path := attempt path (IO.FS.readBinFile (plain path.text))
  write path text := attempt path do
    IO.FS.createDirAll (plain path.parent.text)
    IO.FS.writeFile (plain path.text) text
  exportDate := do pure (← now)
  freshIds := randomIds
  refusal? _ := pure none

/-! ## Output -/

mutual

/-- The lines of a tree on a level. -/
def treeLines (level : Nat) : LabelTree → List Text
  | .branch label branches =>
    (.ofChars (List.replicate (2 * level) ' ') ++ label) :: branchLines (level + 1) branches

def branchLines (level : Nat) : List LabelTree → List Text
  | [] => []
  | t :: rest => treeLines level t ++ branchLines level rest

end

def lines : Printed → List Text
  | .line markup => [markup]
  | .emptyLine => [""]
  | .tree t => treeLines 0 t
  | .table header rows => (header :: rows).map (.joined "  " ·)
  | .panel title body => [title, body]

def printEntry (e : Entry) : IO Unit := do
  let out ← match e.channel with
    | .results => IO.getStdout
    | .progress => IO.getStderr
  (lines e.printed).forM fun line => out.putStrLn (plain line)

end FormulaGraph.Program

open FormulaGraph in
def main (args : List String) : IO UInt32 := do
  match Invocation.ofArguments (args.map Text.ofString) with
  | .error e =>
    IO.eprintln (Program.plain e.message)
    pure 2
  | .ok .help =>
    IO.println "Formula tree CLI. Commands: sample, show, eval, set, solve, check, calc."
    pure 0
  | .ok (.command c) =>
    let report ← c.run
    report.printed.forM Program.printEntry
    match report.ending with
    | some (.crashed why) => IO.eprintln (Program.plain why.message)
    | _ => pure ()
    pure (UInt32.ofNat report.exitCode)
