import FormulaGraph.Main
import FormulaGraph.Files.Table
import FormulaGraph.Number.Exact
import FormulaGraph.Proofs.Evaluation.Outcome
import FormulaGraph.Proofs.Evaluation.Walk
import FormulaGraph.Proofs.Evaluation.Denotation
import FormulaGraph.Proofs.Evaluation.Dependents
import FormulaGraph.Proofs.Registry.Consistent
import FormulaGraph.Proofs.Registry.Edits
import FormulaGraph.Proofs.Registry.Runs
import FormulaGraph.Proofs.Registry.Relinking
import FormulaGraph.Proofs.Expr.Evaluation
import FormulaGraph.Proofs.Solver.Inversion
import FormulaGraph.Proofs.Solver.ClosedForm
import FormulaGraph.Proofs.Expr.Grammar
import FormulaGraph.Proofs.Expr.Parsing
import FormulaGraph.Proofs.Evaluation.Frame
import FormulaGraph.Proofs.Evaluation.Fresh
import FormulaGraph.Proofs.Document.Records
import FormulaGraph.Proofs.Document.Reload
import FormulaGraph.Proofs.Evaluation.Chains
import FormulaGraph.Proofs.Evaluation.Locality
import FormulaGraph.Proofs.Links.Ancestors
import FormulaGraph.Proofs.Registry.Applied
import FormulaGraph.Proofs.Registry.Cascade
import FormulaGraph.Proofs.Registry.Freshness
import FormulaGraph.Proofs.Evaluation.Roots
import FormulaGraph.Proofs.Evaluation.Cycles
import FormulaGraph.Proofs.Links.Violations
import FormulaGraph.Proofs.Document.Checked
import FormulaGraph.Proofs.Solver.Secant
import FormulaGraph.Proofs.Solver.Reached
import FormulaGraph.Proofs.Registry.Refusals
import FormulaGraph.Proofs.Links.Acyclic
import FormulaGraph.Proofs.Display.Trees
import FormulaGraph.Proofs.Document.Walkable
import FormulaGraph.Proofs.Document.Accepted
import FormulaGraph.Proofs.Document.Entries
import FormulaGraph.Proofs.Json.Lines
import FormulaGraph.Proofs.Files.Table
import FormulaGraph.Proofs.Registry.Assigned
import FormulaGraph.Proofs.Document.Loaded
import FormulaGraph.Proofs.Command.Work
import FormulaGraph.Proofs.Command.Steps
import FormulaGraph.Proofs.Command.Assign
import FormulaGraph.Proofs.Display.Printed
import FormulaGraph.Proofs.Command.Endings
import FormulaGraph.Proofs.Command.Named
import FormulaGraph.Proofs.Command.Export
import FormulaGraph.Proofs.Document.Updates
import FormulaGraph.Proofs.Registry.Deleted
import FormulaGraph.Proofs.Registry.Astray
import FormulaGraph.Proofs.Registry.Interrupted
import FormulaGraph.Proofs.Evaluation.Blame
import FormulaGraph.Proofs.Expr.Spelling
import FormulaGraph.Proofs.Expr.Depth
import FormulaGraph.Proofs.Number.Lawful
import FormulaGraph.Proofs.Links.Order
import FormulaGraph.Proofs.Links.Counters
import FormulaGraph.Proofs.Links.Cycles
import FormulaGraph.Proofs.Text.Sorted
import FormulaGraph.Proofs.Links.Intact
import FormulaGraph.Proofs.Solver.Guarded
import FormulaGraph.Proofs.Solver.Affine
import FormulaGraph.Proofs.Registry.Reported
import FormulaGraph.Proofs.Registry.Cached
import FormulaGraph.Proofs.Number.Rounding
import FormulaGraph.Proofs.Number.Shortest
import FormulaGraph.Proofs.Number.Doubles
import FormulaGraph.Proofs.Number.Positional
import FormulaGraph.Proofs.Expr.Segments
import FormulaGraph.Proofs.Expr.Printing
import FormulaGraph.Proofs.Display.Repeats
import FormulaGraph.Proofs.Number.Parts
import FormulaGraph.Proofs.Number.Wholes
import FormulaGraph.Proofs.Config.Settings
import FormulaGraph.Proofs.Config.Section
import FormulaGraph.Proofs.Number.HalfEven
import FormulaGraph.Proofs.Display.Amounts
import FormulaGraph.Proofs.Expr.Tape
import FormulaGraph.Proofs.Expr.Located
import FormulaGraph.Proofs.Solver.Mentions
import FormulaGraph.Proofs.Evaluation.Nesting
import FormulaGraph.Proofs.Display.Nesting
