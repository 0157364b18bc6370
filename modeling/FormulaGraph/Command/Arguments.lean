import FormulaGraph.Command.Basic
/-!
# Command line arguments

An invocation is general options, the name of a command, and the arguments of the command: options
by name, in any place, and the others by position. An option takes its value from behind an equals
sign, from behind its letter, or from the next argument, whatever that looks like. Behind `--`
nothing is an option. Of an option that is given twice the last value counts.

Where the name of a command is none, but looks like an option because it stands behind `--`, the
arguments from there on are read as general options once more. That only matters when they ask for
help; otherwise the command is still unknown.
-/
namespace FormulaGraph

/-- Why arguments are no invocation. -/
inductive UsageError where
  | noCommand
  | unknownCommand (name : Text)
  | unknownOption (name : Text)
  | missingValue (name : Text)
  | unexpectedValue (name : Text)
  | missingArgument (name : Text)
  | missingOption (name : Text)
  | extraArgument (value : Text)
  | notANumber (value : Text)
  | unusablePath (value : Text)
  deriving DecidableEq, Repr

def UsageError.message : UsageError → Text
  | .noCommand => "Missing command."
  | .unknownCommand name => "No such command '" ++ name ++ "'."
  | .unknownOption name => "No such option: " ++ name
  | .missingValue name => "Option '" ++ name ++ "' requires an argument."
  | .unexpectedValue name => "Option '" ++ name ++ "' does not take a value."
  | .missingArgument name => "Missing argument '" ++ name ++ "'."
  | .missingOption name => "Missing option '" ++ name ++ "'."
  | .extraArgument value => "Got unexpected extra argument (" ++ value ++ ")"
  | .notANumber value => "'" ++ value ++ "' is not a valid float."
  | .unusablePath value => "'" ++ value ++ "' is not a valid path."

/-- The commands by name. -/
inductive CommandName where
  | sample | trees | evaluate | assign | solve | check | exportValues
  deriving DecidableEq, Repr

namespace CommandName

/-- The word for a command on the command line. -/
def word : CommandName → Text
  | .sample => "sample"
  | .trees => "show"
  | .evaluate => "eval"
  | .assign => "set"
  | .solve => "solve"
  | .check => "check"
  | .exportValues => "calc"

def all : List CommandName :=
  [.sample, .trees, .evaluate, .assign, .solve, .check, .exportValues]

def ofText? (t : Text) : Option CommandName := all.find? fun name => name.word = t

end CommandName

/-- What the arguments ask for. -/
inductive Invocation where
  | help
  | command (c : Command)

/-- The options that a command knows: those with a value, each with its letter if it has one, and
those without. -/
structure OptionNames where
  valued : List (Text × Option CodePoint)
  flags : List Text

/-- Arguments sorted into options and positions. -/
structure Arguments where
  values : List (Text × Text)
  flags : List Text
  positions : List Text

namespace Arguments

def empty : Arguments := ⟨[], [], []⟩

def withValue (a : Arguments) (name value : Text) : Arguments :=
  { a with values := (name, value) :: a.values }

/-- The last value of an option. -/
def value? (a : Arguments) (name : Text) : Option Text := a.values.lookup name

def hasFlag (a : Arguments) (name : Text) : Bool := name ∈ a.flags

/-- An option name and what stands behind its equals sign, if there is one. -/
def splitAtEquals (arg : Text) : Text × Option Text :=
  let name : Text := ⟨arg.points.takeWhile (· ≠ .char '=')⟩
  match arg.points.dropWhile (· ≠ .char '=') with
  | [] => (name, none)
  | _ :: value => (name, some ⟨value⟩)

/-- The shapes that one argument can have. -/
inductive Shape where
  | position
  /-- An option that is complete in itself. -/
  | whole (change : Arguments → Arguments)
  /-- An option whose value is the next argument. -/
  | awaiting (name : Text)
  | invalid (e : UsageError)

/-- The shape of an option by its name. -/
def longShape (known : OptionNames) (name : Text) (value : Option Text) : Shape :=
  if (known.valued.lookup name).isSome then
    match value with
    | some v => .whole (·.withValue name v)
    | none => .awaiting name
  else if name ∈ known.flags then
    match value with
    | some _ => .invalid (.unexpectedValue name)
    | none => .whole fun a => { a with flags := name :: a.flags }
  else .invalid (.unknownOption name)

/-- The shape of an option by its letter. -/
def letterShape (known : OptionNames) (letter : CodePoint) (rest : List CodePoint) : Shape :=
  match known.valued.find? fun o => o.2 = some letter with
  | none => .invalid (.unknownOption ("-" ++ .singleton letter))
  | some (name, _) =>
    if rest = [] then .awaiting name else .whole (·.withValue name ⟨rest⟩)

def shape (known : OptionNames) (arg : Text) : Shape :=
  match arg.points with
  | .char '-' :: .char '-' :: _ =>
    let (name, value) := splitAtEquals arg
    longShape known name value
  | .char '-' :: letter :: rest => letterShape known letter rest
  | _ => .position

/-- Sorts arguments; `a` holds what came before. -/
def sort (known : OptionNames) (a : Arguments) : List Text → Except UsageError Arguments
  | [] => .ok { a with positions := a.positions.reverse }
  | arg :: rest =>
    if arg = "--" then .ok { a with positions := a.positions.reverse ++ rest }
    else match shape known arg with
      | .position => sort known { a with positions := arg :: a.positions } rest
      | .whole change => sort known (change a) rest
      | .invalid e => .error e
      | .awaiting name =>
        match rest with
        | [] => .error (.missingValue name)
        | value :: rest => sort known (a.withValue name value) rest

/-! ## The commands -/

def output : Text × Option CodePoint := ("--output", some 'o')

/-- The options of a command. -/
def optionsOf : CommandName → OptionNames
  | .sample | .assign | .exportValues => ⟨[output], ["--help"]⟩
  | .trees | .check => ⟨[], ["--help"]⟩
  | .evaluate => ⟨[("--node", none)], ["--help"]⟩
  | .solve =>
    ⟨[("--parent", none), ("--child", none), ("--target", none), output], ["--apply", "--help"]⟩

def number (t : Text) : Except UsageError Float :=
  match Numeral.recorded? t with
  | some n => .ok n.value
  | none => .error (.notANumber t)

def required (a : Arguments) (name : Text) : Except UsageError Text :=
  match a.value? name with
  | some v => .ok v
  | none => .error (.missingOption name)

def path (t : Text) : Except UsageError Path :=
  let p := Path.ofText t
  if p.isUsable then .ok p else .error (.unusablePath t)

/-- The document, which may be the last position there is. -/
def document : List Text → Except UsageError (Option Path)
  | [] => .ok none
  | [t] => some <$> path t
  | _ :: extra :: _ => .error (.extraArgument extra)

/-- The output path, if it is given. -/
def output? (a : Arguments) : Except UsageError (Option Path) :=
  match a.value? "--output" with
  | none => .ok none
  | some t => some <$> path t

/-- The command that sorted arguments stand for. -/
def toCommand (name : CommandName) (a : Arguments) : Except UsageError Command :=
  match name with
  | .sample => do
    let output ← a.required "--output"
    match a.positions with
    | [] => pure (.sample (← path output))
    | extra :: _ => throw (.extraArgument extra)
  | .trees => do pure (.trees (← document a.positions))
  | .evaluate => do pure (.evaluate (← document a.positions) (a.value? "--node"))
  | .assign =>
    match a.positions with
    | [] => .error (.missingArgument "NAME")
    | [_] => .error (.missingArgument "VALUE")
    | name :: value :: rest => do
      pure (.assign name (← number value) (← document rest) (← a.output?))
  | .solve => do
    let document ← document a.positions
    let parent ← a.required "--parent"
    let child ← a.required "--child"
    let target ← number (← a.required "--target")
    pure (.solve document parent child target (a.hasFlag "--apply") (← a.output?))
  | .check => do pure (.check (← document a.positions))
  | .exportValues => do
    let output ← a.required "--output"
    pure (.exportValues (← document a.positions) (← path output))

/-! ## General options -/

/-- The options in front of the command. -/
def general : OptionNames := ⟨[], ["--verbose", "--no-verbose", "--help"]⟩

/-- The general options at the start, and the arguments behind them; `a` holds earlier options. -/
def takeGeneral (a : Arguments) : List Text → Except UsageError (Arguments × List Text)
  | [] => .ok (a, [])
  | arg :: rest =>
    if arg = "--" then .ok (a, rest)
    else match shape general arg with
      | .position => .ok (a, arg :: rest)
      | .whole change => takeGeneral (change a) rest
      | .awaiting name => .error (.missingValue name)
      | .invalid e => .error e

/-- Whether arguments that begin with no command ask for help as general options. -/
def asksForHelp (args : List Text) : Bool :=
  match takeGeneral empty args with
  | .ok (a, _) => a.hasFlag "--help"
  | .error _ => false

/-- Reads the name of a command and its arguments. -/
def readCommand : List Text → Except UsageError Invocation
  | [] => .error .noCommand
  | command :: args =>
    match CommandName.ofText? command with
    | none => if asksForHelp (command :: args) then .ok .help else .error (.unknownCommand command)
    | some name => do
      let a ← sort (optionsOf name) empty args
      if a.hasFlag "--help" then pure .help else pure (.command (← toCommand name a))

end Arguments

/-- Reads the arguments of the command line. -/
def Invocation.ofArguments (args : List Text) : Except UsageError Invocation := do
  let (a, rest) ← Arguments.takeGeneral .empty args
  if a.hasFlag "--help" then pure .help else Arguments.readCommand rest

end FormulaGraph
