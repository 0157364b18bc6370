import FormulaGraph.Display.Printed
import FormulaGraph.Files.Path
import FormulaGraph.Text.Quoted
/-!
# Access to files and to the console

What the command line needs of its surroundings, in any monad: the files, the current directory, the
time of an export, fresh ids and a console. `FormulaGraph.Files.Table` gives it on a table of files.

**The console** reads what it prints as markup and refuses what it cannot read. Which entries these
are is up to the console. There may be such: the parts of a line are escaped one by one and paths
are not escaped at all, so a bracket that is opened in one part can be closed in another.
-/
namespace FormulaGraph

/-- Why a file cannot be read or written. -/
inductive FileFault where
  | notFound
  | alreadyExists
  | notADirectory
  | isDirectory
  | nameTooLong
  | other (code : Nat) (message : String)
  deriving DecidableEq, Repr

/-- A fault with the path it concerns. -/
structure FileError where
  fault : FileFault
  path : Path
  deriving DecidableEq, Repr

namespace FileFault

def code : FileFault → Nat
  | .notFound => 2
  | .alreadyExists => 17
  | .notADirectory => 20
  | .isDirectory => 21
  | .nameTooLong => 36
  | .other code _ => code

def reason : FileFault → String
  | .notFound => "No such file or directory"
  | .alreadyExists => "File exists"
  | .notADirectory => "Not a directory"
  | .isDirectory => "Is a directory"
  | .nameTooLong => "File name too long"
  | .other _ message => message

end FileFault

def FileError.message (e : FileError) : Text :=
  s!"[Errno {e.fault.code}] {e.fault.reason}: " ++ Text.quoted e.path.text

/-- Why the console does not print an entry. -/
structure MarkupError where
  message : Text
  deriving DecidableEq, Repr

/-- The surroundings of a command. -/
class Surroundings (m : Type → Type) where
  currentDirectory : m Path
  isFile : Path → m Bool
  read : Path → m (Except FileError ByteArray)
  /-- Writes a file; missing directories above it are made. -/
  write : Path → String → m (Except FileError Unit)
  exportDate : m Text
  /-- The ids of nodes that are about to be created. -/
  freshIds : m (Nat → Text)
  /-- The refusal of the console to print something. -/
  refusal? : Printed → m (Option MarkupError)

end FormulaGraph
