import FormulaGraph.Command.Basic
import FormulaGraph.Document
import FormulaGraph.Sample
import FormulaGraph.Solver.Solve
import FormulaGraph.Solver.Twister
import FormulaGraph.Values
/-!
# Running commands

A command runs step by step in its surroundings. What it prints is collected in order. A step may
end the command, and so may a console that refuses to print; the steps before it stay done.
-/
namespace FormulaGraph

/-- Work that prints, and that may end early. -/
abbrev Work (m : Type → Type) := ExceptT Ending (StateT (List Entry) m)

namespace Work

variable {m : Type → Type} [Monad m]

def fail {β : Type} : Work m β := throw .failed

def crash {β : Type} (why : Crash) : Work m β := throw (.crashed why)

/-- Does something in the surroundings. -/
def perform {β : Type} (x : m β) : Work m β := ExceptT.lift (StateT.lift x)

def shown {β : Type} : Except UnitError β → Work m β
  | .ok x => pure x
  | .error e => crash (.unit e)

/-- The report of some work. -/
def report (w : Work m Unit) : m Report := do
  let (result, printed) ← StateT.run (ExceptT.run w) []
  match result with
  | .ok () => pure ⟨printed, none⟩
  | .error ending => pure ⟨printed, some ending⟩

variable [Surroundings m]

/-- Prints an entry, unless the console refuses it. -/
def print (e : Entry) : Work m Unit := do
  match ← perform (Surroundings.refusal? e.printed) with
  | none => modify (· ++ [e])
  | some why => crash (.markup why)

/-- Says something about the work. -/
def say (markup : Text) : Work m Unit := print ⟨.progress, .line markup⟩

def sayNothing : Work m Unit := print ⟨.progress, .emptyLine⟩

/-- Prints a line of the result. -/
def printLine (markup : Text) : Work m Unit := print ⟨.results, .line markup⟩

/-- Says something and fails. -/
def failWith {β : Type} (markup : Text) : Work m β := do
  say markup
  fail

end Work

namespace Command

open Work

variable {m : Type → Type} [Monad m] [Surroundings m]

/-! ## Steps that commands share -/

/-- The configuration, unless it is wrong. -/
def configuration : Work m (Config Float) := do
  match ← perform Config.current with
  | .ok config => pure config
  | .error (.invalid e) =>
    failWith ("[red]Configuration error: " ++ Text.escapeMarkup e.message ++ "[/red]")
  | .error e => crash (.config e)

/-- The document that is given, or else the configured one. -/
def chooseDocument : Option Path → Work m Path
  | some path => pure path
  | none => do
    match (← configuration).document with
    | some path => pure path
    | none => failWith "[red]No document given and no [tool.formtree].document configured[/red]"

/-- The registry in a document. -/
def loadDocument (path : Path) : Work m (Registry Float) := do
  say ("[cyan]Loading tree from:[/cyan] " ++ path.text)
  if !path.isUsable then crash .unusablePath
  match ← perform (Surroundings.read path) with
  | .error e =>
    failWith
      ("[red]Error: cannot read " ++ path.text ++ ": " ++ Text.escapeMarkup e.message ++ "[/red]")
  | .ok bytes =>
    match (Registry.empty : Registry Float).loadBytes bytes false with
    | (.ok (), r) => pure r
    | (.error (.rejected f), _) => failWith (Display.failureLine f)
    | (.error (.numberTooLong digits), _) => crash (.numberTooLong digits)
    | (.error .notUtf8, _) => crash .notUtf8

/-- The only node of a name. -/
def lookUp (r : Registry Float) (name : Text) : Work m (Node Float) :=
  match r.resolve name with
  | .ok n => pure n
  | .error e => failWith ("[red]Error: " ++ Text.escapeMarkup e.message ++ "[/red]")

def writeFile (path : Path) (text : String) : Work m Unit := do
  match ← perform (Surroundings.write path text) with
  | .ok () => pure ()
  | .error e => crash (.file e)

def save (r : Registry Float) (path : Path) : Work m Unit := do
  match r.fileText (← perform Surroundings.exportDate) with
  | .ok text => writeFile path text
  | .error e => crash (.unencodable e)

/-! ## The commands -/

def runSample (output : Path) : Work m Unit := do
  let ids ← perform Surroundings.freshIds
  save (Registry.sample ids) output
  say ("[green]✓ Sample tree written to " ++ output.text ++ "[/green]")

/-- Prints the tree of a root with the outcome of its evaluation. -/
def printRoot (r : Registry Float) (id : Text) (o : Outcome Float) : Work m Unit :=
  match r.display id with
  | none => say ("[yellow]Root '" ++ Text.escapeMarkup id ++ "' does not exist[/yellow]")
  | some t => do
    let failure := match o with
      | .ok _ => none
      | .error f => some f
    print (← shown (Display.tree t failure))

def runTrees (document : Option Path) : Work m Unit := do
  let r ← loadDocument (← chooseDocument document)
  let (evaluations, r) := r.evaluateRoots
  sayNothing
  if r.roots.isEmpty then printLine "[dim]No root nodes[/dim]"
  else evaluations.entries.forM fun e => printRoot r e.1 e.2

/-- The line of a node that failed. -/
def failedNode (r : Registry Float) (id : Text) (f : Failure) : Text :=
  let name := match r.node? id with
    | some n => n.name
    | none => id
  "[red]✗ " ++ Text.escapeMarkup name ++ ": " ++ Text.escapeMarkup f.text ++ "[/red]"

/-- Prints the rows of nodes, and the failures of an evaluation. -/
def printTable (r : Registry Float) (rows : List (NodeRow Float))
    (evaluations : Evaluations Float) : Work m Unit := do
  sayNothing
  (← shown (Display.table rows)).forM print
  match Registry.failures evaluations with
  | [] => pure ()
  | failures =>
    sayNothing
    failures.forM fun e => say (failedNode r e.1 e.2)
    fail

def runEvaluate (document : Option Path) (node : Option Text) : Work m Unit := do
  let r ← loadDocument (← chooseDocument document)
  match node with
  | none =>
    let (evaluations, r) := r.evaluateRoots
    printTable r r.rows evaluations
  | some name =>
    let id := (← lookUp r name).id
    let (outcome, r) := r.evaluate id
    -- Evaluation changes no name, so the node is found again, with its new value.
    let n ← lookUp r name
    printTable r [r.row n] (OrderedMap.empty.insert id outcome)

/-- The warning about a root that failed when a factor got its value; the root has to exist. -/
def warnRoot (r : Registry Float) (id : Text) (f : Failure) : Work m Unit :=
  match r.node? id with
  | none => crash (.missingNode id)
  | some n =>
    say ("[yellow]⚠ " ++ Text.escapeMarkup n.name ++ ": " ++ Text.escapeMarkup f.text ++
      "[/yellow]")

def runAssign (name : Text) (value : Float) (document output : Option Path) : Work m Unit := do
  let path ← chooseDocument document
  let r ← loadDocument path
  let target ← lookUp r name
  match r.update target.id { Changes.empty with value := some (.real value) } with
  | (.error (.rejected f), _) => failWith (Display.failureLine f)
  | (.error (.unusable _), _) => fail
  | (.ok evaluations, r) =>
    (Registry.failures evaluations).forM fun e => warnRoot r e.1 e.2
    let output := output.getD path
    save r output
    say ("[green]✓ " ++ Text.escapeMarkup name ++ s!" = {Places.text value}; " ++
      "saved to " ++ output.text ++ "[/green]")

/-- The panel with a value that was found. -/
def solution (parent child : Text) (target value : Float) (s : Solved Float) : Printed :=
  let method := match s.method with
    | some method => method.text
    | none => "None"
  .panel ("[bold]" ++ Text.escapeMarkup parent ++ s!" = {Places.text target}[/bold]")
    ("[bold]" ++ Text.escapeMarkup child ++ s!"[/bold] = {floatText value}\n" ++
      s!"[dim]method: {method}, iterations: {s.iterations}[/dim]")

/-- Gives a factor the value that was found and saves the registry. -/
def applyAndSave (r : Registry Float) (child : Text) (s : Solved Float) (output : Path) :
    Work m Unit :=
  match r.applySolution child s with
  | (.error f, _) => failWith (Display.failureLine f)
  | (.ok _, r) => do
    save r output
    say ("[green]✓ Applied and saved to " ++ output.text ++ "[/green]")

def runSolve (document : Option Path) (parent child : Text) (target : Float) (apply : Bool)
    (output : Option Path) : Work m Unit := do
  let path ← chooseDocument document
  let r ← loadDocument path
  let p ← lookUp r parent
  let c ← lookUp r child
  let settings := (← configuration).solver
  let s := r.solveChild p.id c.id target settings Twister.draw (.ofSeed settings.seed)
  sayNothing
  match s.outcome with
  | .error f => failWith (Display.failureLine f)
  | .ok value =>
    print ⟨.results, solution parent child target value s⟩
    if apply then applyAndSave r c.id s (output.getD path)

def runCheck (document : Option Path) : Work m Unit := do
  let r ← loadDocument (← chooseDocument document)
  sayNothing
  match r.violations with
  | [] => say ("[green]✓ Tree is consistent[/green] " ++
      s!"[dim]({r.nodes.size} nodes, {r.roots.length} roots)[/dim]")
  | found =>
    found.forM fun v => say ("  [red]•[/red] " ++ Text.escapeMarkup v.message)
    sayNothing
    failWith s!"[red]✗ {found.length} problem(s) found[/red]"

def runExport (document : Option Path) (output : Path) : Work m Unit := do
  let r ← loadDocument (← chooseDocument document)
  say "[cyan]Evaluating roots...[/cyan]"
  let (evaluations, r) := r.evaluateRoots
  say ("[cyan]Exporting values to:[/cyan] " ++ output.text)
  let file := r.valuesFile
  writeFile output file.text
  if let some e := file.stopped then crash (.writing e)
  sayNothing
  match Registry.failures evaluations with
  | [] => say "[green]✓ Calculation complete[/green]"
  | failed => failWith s!"[red]✗ {failed.length} root(s) failed to evaluate[/red]"

/-- The work of a command. -/
def work : Command → Work m Unit
  | .sample output => runSample output
  | .trees document => runTrees document
  | .evaluate document node => runEvaluate document node
  | .assign name value document output => runAssign name value document output
  | .solve document parent child target apply output =>
    runSolve document parent child target apply output
  | .check document => runCheck document
  | .exportValues document output => runExport document output

/-- Runs a command in its surroundings. -/
def run (c : Command) : m Report := report c.work

end Command

end FormulaGraph
