import FormulaGraph.Files.Access
import FormulaGraph.Solver.Settings
import FormulaGraph.Toml.Reader
/-!
# Configuration

A project is configured in its `pyproject.toml`, in the section `tool.formtree`: the document that
commands work on, and the settings of the solver. The file is searched in the current directory and
then upwards. A relative document path counts from the directory of the file.

**Errors.** A section with an unknown solver key or a wrong kind of value is a `ConfigError`. Where
the section itself, or the table around it, is no table, looking for its entries fails in other ways
(`ShapeError`) or finds none.
-/
namespace FormulaGraph

/-- What is wrong with a configuration. -/
inductive ConfigError where
  | unreadable (path : Path) (f : Toml.Fault) (text : List Char) (offset : Nat)
  | document
  | solver
  | maxIterations
  | tolerance
  | perturbation
  | seed
  | unknownKey (key : Text)
  deriving DecidableEq, Repr

def ConfigError.message : ConfigError → Text
  | .unreadable path f text offset =>
    "Invalid TOML in " ++ path.text ++ ": " ++ f.located text offset
  | .document => "Invalid [tool.formtree].document: expected string path"
  | .solver => "Invalid [tool.formtree].solver: expected a table"
  | .maxIterations => "Invalid [tool.formtree.solver].max_iterations: expected a positive integer"
  | .tolerance => "Invalid [tool.formtree.solver].tolerance: expected a positive number"
  | .perturbation =>
    "Invalid [tool.formtree.solver].perturbation: expected 'deterministic' or 'random'"
  | .seed => "Invalid [tool.formtree.solver].seed: expected an integer"
  | .unknownKey key => "Unknown [tool.formtree.solver] key: '" ++ key ++ "'"

/-- Why entries cannot be looked up in a value, or a number cannot be used. -/
inductive ShapeError where
  | notATable (kind : String)
  | notSearchable (kind : String)
  | indexedText
  | indexedArray
  | numberTooLarge
  deriving DecidableEq, Repr

def ShapeError.message : ShapeError → String
  | .notATable kind => s!"'{kind}' object has no attribute 'get'"
  | .notSearchable kind => s!"argument of type '{kind}' is not iterable"
  | .indexedText => "string indices must be integers, not 'str'"
  | .indexedArray => "list indices must be integers or slices, not str"
  | .numberTooLarge => "int too large to convert to float"

/-- Why there is no configuration. -/
inductive ConfigFailure where
  | invalid (e : ConfigError)
  | misshapen (e : ShapeError)
  | file (e : FileError)
  | numberTooLong (digits : Nat)
  | notUtf8
  deriving DecidableEq, Repr

structure Config (α : Type) where
  document : Option Path
  solver : SolverSettings α
  projectRoot : Option Path

namespace SolverSettings

variable {α : Type} [Scalar α]

/-- The tolerance that a value stands for. -/
def toTolerance (v : Toml.Value α) : Except ConfigFailure α :=
  match v with
  | .int i =>
    if i ≤ 0 then .error (.invalid .tolerance)
    else
      let x : α := Scalar.ofInt i
      if Scalar.isFinite x then .ok x else .error (.misshapen .numberTooLarge)
  | .real x =>
    if Scalar.lt x Scalar.zero || Scalar.isZero x then .error (.invalid .tolerance) else .ok x
  | _ => .error (.invalid .tolerance)

/-- The perturbation of a name. -/
def toPerturbation (v : Toml.Value α) : Except ConfigFailure Perturbation :=
  let known : List Perturbation := [.deterministic, .random]
  match v with
  | .text t =>
    match known.find? fun p => t = p.text with
    | some p => .ok p
    | none => .error (.invalid .perturbation)
  | _ => .error (.invalid .perturbation)

/-- The settings with one entry of the table taken over. -/
def addEntry (s : SolverSettings α) (key : Text) (v : Toml.Value α) :
    Except ConfigFailure (SolverSettings α) :=
  if key = "max_iterations" then
    match v with
    | .int i =>
      if i < 1 then .error (.invalid .maxIterations) else .ok { s with maxIterations := i }
    | _ => .error (.invalid .maxIterations)
  else if key = "tolerance" then (toTolerance v).map fun tolerance => { s with tolerance }
  else if key = "perturbation" then
    (toPerturbation v).map fun perturbation => { s with perturbation }
  else if key = "seed" then
    match v with
    | .int seed => .ok { s with seed }
    | _ => .error (.invalid .seed)
  else .error (.invalid (.unknownKey key))

/-- The settings of a solver table; the first wrong entry counts. -/
def ofValue (v : Toml.Value α) : Except ConfigFailure (SolverSettings α) :=
  match v with
  | .table entries => entries.foldlM (fun s e => s.addEntry e.1 e.2) standard
  | _ => .error (.invalid .solver)

end SolverSettings

namespace Config

variable {α : Type} [Scalar α]

/-- The configuration where there is no section. -/
def standard (projectRoot : Option Path) : Config α := ⟨none, .standard, projectRoot⟩

/-- Looks for an entry of the section. -/
def named? (name : Text) (values : Toml.Value α) : Except ShapeError (Option (Toml.Value α)) :=
  match values with
  | .table entries => .ok (Toml.Value.field? name entries)
  | .text t =>
    if (Toml.before? name.points t.points).isSome then .error .indexedText else .ok none
  | .array items =>
    let found := items.any fun
      | .text s => s == name
      | _ => false
    if found then .error .indexedArray else .ok none
  | v => .error (.notSearchable v.kindName)

/-- The document path of a value. -/
def toDocument (projectRoot : Path) (v : Toml.Value α) : Except ConfigFailure Path :=
  match v with
  | .text s => .ok (projectRoot.join (.ofText s))
  | _ => .error (.invalid .document)

def shaped {β : Type} : Except ShapeError β → Except ConfigFailure β
  | .ok x => .ok x
  | .error e => .error (.misshapen e)

/-- The configuration in a section. -/
def ofSection (projectRoot : Path) (values : Toml.Value α) : Except ConfigFailure (Config α) := do
  if !values.isGiven then return standard (some projectRoot)
  let document ← match ← shaped (named? "document" values) with
    | none => pure none
    | some v => some <$> toDocument projectRoot v
  let solver ← match ← shaped (named? "solver" values) with
    | none => pure .standard
    | some v => SolverSettings.ofValue v
  pure ⟨document, solver, some projectRoot⟩

/-- The configuration in a file. -/
def ofTable (projectRoot : Path) (t : Toml.Table α) : Except ConfigFailure (Config α) :=
  match (Toml.Value.field? "tool" t).getD (.table []) with
  | .table tool => ofSection projectRoot ((Toml.Value.field? "formtree" tool).getD (.table []))
  | v => .error (.misshapen (.notATable v.kindName))

/-- The configuration in the contents of a file. -/
def ofBytes (path : Path) (bytes : ByteArray) : Except ConfigFailure (Config α) :=
  match String.fromUTF8? bytes with
  | none => .error .notUtf8
  | some s =>
    let text := Toml.Reader.plainLines s.toList
    match Toml.read text with
    | .error (.fault f offset) => .error (.invalid (.unreadable path f text offset))
    | .error (.numberTooLong digits) => .error (.numberTooLong digits)
    | .ok t => ofTable path.parent t

variable {m : Type → Type} [Monad m] [Surroundings m]

/-- Reads a configuration file. -/
def load (path : Path) : m (Except ConfigFailure (Config α)) := do
  match ← Surroundings.read path with
  | .error e => pure (.error (.file e))
  | .ok bytes => pure (ofBytes path bytes)

/-- The first of the paths that is a file. -/
def firstFile : List Path → m (Option Path)
  | [] => pure none
  | p :: rest => do if ← Surroundings.isFile p then pure (some p) else firstFile rest

/-- The configuration file of the current directory or the nearest directory above it. -/
def find : m (Option Path) := do
  let here ← Surroundings.currentDirectory
  firstFile (here.upwards.map (·.child "pyproject.toml"))

/-- The configuration that holds in the current directory. -/
def current : m (Except ConfigFailure (Config α)) := do
  match ← find with
  | none => pure (.ok (standard none))
  | some path => load path

end Config

end FormulaGraph
