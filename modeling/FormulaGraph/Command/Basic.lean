import FormulaGraph.Config
import FormulaGraph.Toml.Writer
/-!
# Commands

The commands of the command line, and how one ends: it finishes, it fails after saying why, or it
breaks off at something that it does not handle.
-/
namespace FormulaGraph

inductive Command where
  /-- Writes the sample registry. -/
  | sample (output : Path)
  /-- Evaluates the roots and prints them as trees. -/
  | trees (document : Option Path)
  /-- Evaluates the roots, or the node of a name, and prints a table. -/
  | evaluate (document : Option Path) (node : Option Text)
  /-- Gives the factor of a name a value and saves the registry. -/
  | assign (name : Text) (value : Float) (document output : Option Path)
  /-- Solves for a child, and saves the registry if the value is to be applied. -/
  | solve (document : Option Path) (parent child : Text) (target : Float) (apply : Bool)
      (output : Option Path)
  /-- Reports inconsistencies. -/
  | check (document : Option Path)
  /-- Evaluates the roots and exports the values. -/
  | exportValues (document : Option Path) (output : Path)

/-- What breaks a command off. -/
inductive Crash where
  | file (e : FileError)
  | config (e : ConfigFailure)
  | missingNode (id : Text)
  | numberTooLong (digits : Nat)
  | notUtf8
  /-- A path that the system cannot take. -/
  | unusablePath
  | unit (e : UnitError)
  /-- A registry that has no document. -/
  | unencodable (e : Text.EncodeFault)
  | writing (e : Toml.WriteFault)
  /-- An entry that the console does not print. -/
  | markup (e : MarkupError)
  deriving DecidableEq, Repr

def Crash.message : Crash → Text
  | .file e => e.message
  | .config (.invalid e) => e.message
  | .config (.misshapen e) => e.message
  | .config (.file e) => e.message
  | .config (.numberTooLong digits) => Numeral.tooLongMessage digits
  | .config .notUtf8 => "configuration is not valid UTF-8"
  | .missingNode id => Text.quoted id
  | .numberTooLong digits => Numeral.tooLongMessage digits
  | .notUtf8 => "document is not valid UTF-8"
  | .unusablePath => "embedded null byte"
  | .unit e => e.message
  | .unencodable e => e.message
  | .writing e => e.message
  | .markup e => e.message

/-- How a command ends before its last step. -/
inductive Ending where
  | failed
  | crashed (why : Crash)
  deriving DecidableEq, Repr

/-- What is left of a command: what it printed, and how it ended early if it did. -/
structure Report where
  printed : List Entry
  ending : Option Ending

/-- The exit code of a command. -/
def Report.exitCode (r : Report) : Nat := if r.ending.isSome then 1 else 0

end FormulaGraph
