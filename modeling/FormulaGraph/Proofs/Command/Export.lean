import FormulaGraph.Proofs.Command.Assign
import FormulaGraph.Proofs.Evaluation.Cycles
import FormulaGraph.Proofs.Evaluation.Denotation
/-!
# Exporting values

An export succeeds only if every root does, and the evaluation of a root that succeeds gives a value
to every node below it. So no computed value that was in the document is left where all nodes are
below roots, and no node is left out where their names are different.

* `valuesTable_of_entries`: the table of nodes that all have values.
* `exists_value_of_failures`: the nodes after an evaluation of roots that succeed.
* `run_export`: what is written.
-/
namespace FormulaGraph

open Links

variable {α : Type}

namespace Node

/-- A node with a computed value. -/
def valued (n : Node α) (v : α) : Node α := { n with computed := some v }

/-- What is exported of a node with a value. -/
def exported (n : Node α) (v : α) : Text × ExportedValue α := (n.name, ⟨n.kind, v, n.unit⟩)

/-- The fields that are written of it. -/
def exportedFields (n : Node α) (v : α) : List (Text × Json α) :=
  ("kind", .text n.kind.text) :: ("value", .real v) :: present .unit n.unit

end Node

namespace Registry

/-! ## The table -/

/-- What one more node adds to what is exported. -/
def exportNode (found : OrderedMap Text (ExportedValue α)) (n : Node α) :
    OrderedMap Text (ExportedValue α) :=
  match n.computed with
  | none => found
  | some v => if found.contains n.name then found else found.insert n.name ⟨n.kind, v, n.unit⟩

theorem exportedValues_eq_foldl (r : Registry α) :
    r.exportedValues = r.list.foldl exportNode .empty := rfl

/-- A node with a value and a new name is added. -/
theorem entries_exportNode {found : OrderedMap Text (ExportedValue α)} {n : Node α}
    (hname : n.name ∉ found.keys) (v : α) :
    (exportNode found (n.valued v)).entries = found.entries ++ [n.exported v] := by
  have htaken : ¬found.contains n.name = true := by rwa [OrderedMap.contains_iff]
  calc (exportNode found (n.valued v)).entries
      = (found.insert n.name ⟨n.kind, v, n.unit⟩).entries :=
        congrArg OrderedMap.entries (if_neg htaken)
    _ = found.entries ++ [n.exported v] := OrderedMap.put_of_not_mem hname _

/-- Nodes with values and different names are all added, one after the other. -/
theorem entries_foldl_exportNode {ns : List (Node α × α)}
    {found : OrderedMap Text (ExportedValue α)}
    (hnames : (found.keys ++ ns.map fun e => e.1.name).Nodup) :
    ((ns.map fun e => e.1.valued e.2).foldl exportNode found).entries =
      found.entries ++ ns.map fun e => e.1.exported e.2 := by
  induction ns generalizing found with
  | nil => simp
  | cons e rest ih =>
    have hnew : e.1.name ∉ found.keys := by
      rw [List.nodup_append] at hnames
      exact fun hmem => hnames.2.2 _ hmem e.1.name (by simp) rfl
    have hadded := entries_exportNode hnew e.2
    rw [List.map_cons, List.foldl_cons, ih, hadded, List.append_assoc]
    · rfl
    · rwa [OrderedMap.keys, hadded, List.map_append, List.append_assoc]

/-- The table with an entry for every node. -/
def tableOf (r : Registry α) (value : Text → α) : List (Text × Json α) :=
  [("values", .object (r.nodes.entries.map fun e =>
    (e.2.name, .object (e.2.exportedFields (value e.1)))))]

theorem exportedFields_exported (n : Node α) (v : α) :
    exportedFields (n.exported v).2 = n.exportedFields v := by
  unfold Registry.exportedFields Node.exportedFields Node.exported
  cases n.unit <;> rfl

/-- Where all nodes have values and different names, the table has an entry for each. -/
theorem valuesTable_of_entries {r s : Registry α} {value : Text → α}
    (hentries : s.nodes.entries = r.nodes.entries.map fun e => (e.1, e.2.valued (value e.1)))
    (hnames : (r.list.map Node.name).Nodup) : s.valuesTable = r.tableOf value := by
  have hlist : s.list = (r.nodes.entries.map fun e => (e.2, value e.1)).map
      fun e => e.1.valued e.2 := by
    rw [list, OrderedMap.values, hentries, List.map_map, List.map_map]
    rfl
  have hfresh : ((OrderedMap.empty : OrderedMap Text (ExportedValue α)).keys ++
      (r.nodes.entries.map fun e => (e.2, value e.1)).map fun e => e.1.name).Nodup := by
    simpa [OrderedMap.empty, OrderedMap.keys, list, OrderedMap.values, Function.comp_def]
      using hnames
  rw [valuesTable, exportedValues_eq_foldl, hlist, entries_foldl_exportNode hfresh, tableOf,
    OrderedMap.empty, List.nil_append, List.map_map, List.map_map]
  simp only [Function.comp_def, exportedFields_exported]
  rfl

/-! ## The nodes -/

/-- A child of a node that has a record is one that an evaluation comes to. -/
theorem link_of_child {r : Registry α} (hr : r.Recordable) {p c : Text}
    (h : Child (ofNodes r.nodes) p c) : Link r.nodes p c := by
  rw [child_ofNodes_eq] at h
  exact link_of_hasChild (fun n hn => (hr p n hn).factor) h

variable [Scalar α]

/-- Where every root succeeds, every node below a root has the value that it denotes. -/
theorem exists_value_of_failures {r : Registry α} (hr : r.Recordable)
    (hfailures : failures r.evaluateRoots.1 = [])
    (hreached : ∀ id, r.nodes.contains id = true →
      ∃ root ∈ r.roots, Relation.ReflTransGen (Child (ofNodes r.nodes)) root id) :
    ∃ value : Text → α,
      (∀ id, r.nodes.contains id = true → ∀ nodes, SameMeaning r.nodes nodes →
        Denotes nodes id (.ok (value id))) ∧
      r.evaluateRoots.2.nodes.entries =
        r.nodes.entries.map fun e => (e.1, e.2.valued (value e.1)) := by
  have hnoted : ∀ id, r.nodes.contains id = true → ∃ v, outcomeAlong r.nodes [] id = .ok v ∧
      (traces r.nodes r.roots).lookup id = some v := by
    intro id hid
    obtain ⟨root, hroot, hbelow⟩ := hreached id hid
    have hreaches : Reaches r.nodes root id :=
      Relation.ReflTransGen.mono (fun _ _ => link_of_child hr) _ _ hbelow
    -- the root has not failed, so its evaluation has come to a value of every node below it
    cases houtcome : (r.evaluate root).1 with
    | error f =>
      have hfailed : (root, f) ∈ failures r.evaluateRoots.1 :=
        mem_failures_iff.2 ⟨hroot, houtcome⟩
      rw [hfailures] at hfailed
      cases hfailed
    | ok w =>
      rw [evaluate_eq] at houtcome
      obtain ⟨v, hv⟩ := mem_traceAlong_of_reaches houtcome hreaches
      exact ⟨v, mem_traceAlong hv, lookup_traces.2 ⟨root, hroot, hv⟩⟩
  refine ⟨fun id => ((traces r.nodes r.roots).lookup id).getD Scalar.nan, ?_, ?_⟩
  · intro id hid nodes hsame
    obtain ⟨v, houtcome, hlookup⟩ := hnoted id hid
    simp only [hlookup, Option.getD_some]
    rw [outcomeAlong_congr hsame] at houtcome
    exact denotes_of_outcomeAlong_eq_ok houtcome
  · rw [evaluateRoots, evaluateEach_eq]
    refine List.map_congr_left fun e he => ?_
    obtain ⟨v, -, hlookup⟩ := hnoted e.1
      (contains_iff_node?.2 ⟨e.2, OrderedMap.get?_eq_some_iff.2 he⟩)
    simp only [hlookup, Option.getD_some, Node.valued]

end Registry

/-! ## The command -/

namespace Command

open Work

variable {t t' : FileTable} {path output : Path} {r : Registry Float}

/-- The ways in which an export ends that has evaluated the roots. -/
inductive Exports (t : FileTable) (evaluated : Evaluations Float × Registry Float) (output : Path) :
    Except Ending Unit → FileTable → Prop where
  /-- The console refuses a line before anything is written. -/
  | unprinted {why : MarkupError} (hconsole : ¬t.PrintsAll) :
      Exports t evaluated output (.error (.crashed (.markup why))) t
  | unwritten {e : FileError} (hwrite : t.write output evaluated.2.valuesFile.text = .error e) :
      Exports t evaluated output (.error (.crashed (.file e))) t
  | cutOff {t' : FileTable} {e : Toml.WriteFault}
      (hwrite : t.write output evaluated.2.valuesFile.text = .ok t')
      (hstopped : evaluated.2.valuesFile.stopped = some e) :
      Exports t evaluated output (.error (.crashed (.writing e))) t'
  | incomplete {t' : FileTable} (hwrite : t.write output evaluated.2.valuesFile.text = .ok t')
      (hstopped : evaluated.2.valuesFile.stopped = none)
      (hfailures : Registry.failures evaluated.1 ≠ []) :
      Exports t evaluated output (.error .failed) t'
  | complete {t' : FileTable} (hwrite : t.write output evaluated.2.valuesFile.text = .ok t')
      (hstopped : evaluated.2.valuesFile.stopped = none)
      (hfailures : Registry.failures evaluated.1 = []) : Exports t evaluated output (.ok ()) t'
  /-- The console refuses what is said at the end. -/
  | unreported {t' : FileTable} {why : MarkupError} (hconsole : ¬t.PrintsAll)
      (hwrite : t.write output evaluated.2.valuesFile.text = .ok t') :
      Exports t evaluated output (.error (.crashed (.markup why))) t'

/-- Everything that the command can come to. -/
theorem endsIn_runExport {document : Option Path}
    (hchoose : Ends (chooseDocument document) t (.ok path) t) (ht : t.Holds path r)
    (output : Path) : EndsIn (runExport document output) t (Exports t r.evaluateRoots output) := by
  unfold runExport
  refine hchoose.next ((prints_loadDocument ht).next (fun hc _ => .unprinted hc) ?_)
  refine (prints_say _ t).next (fun hc _ => .unprinted hc) ?_
  rcases r.evaluateRoots with ⟨evaluations, s⟩
  refine (prints_say _ t).next (fun hc _ => .unprinted hc) ?_
  cases hwrite : t.write output s.valuesFile.text with
  | error e => exact ⟨_, t, (ends_writeFile_of_error hwrite).stop, .unwritten hwrite⟩
  | ok t' =>
    refine (ends_writeFile hwrite).next ?_
    extract_lets rest
    have hunreported : ¬t'.PrintsAll → ∀ why,
        Exports t (evaluations, s) output (.error (.crashed (.markup why))) t' :=
      fun hc _ => .unreported (fun hprints => hc (hprints.write hwrite)) hwrite
    cases hstopped : s.valuesFile.stopped with
    | some e => exact ⟨_, t', (ends_crash _ t').stop, .cutOff hwrite hstopped⟩
    | none =>
      refine (prints_print _ t').next hunreported ?_
      cases hfailures : Registry.failures evaluations with
      | nil => exact (prints_say _ t').last hunreported (.complete hwrite hstopped hfailures)
      | cons e failed =>
        refine (prints_failWith _ t').last hunreported (.incomplete hwrite hstopped ?_)
        exact hfailures ▸ List.cons_ne_nil e failed

/-- The command succeeds if no root fails, the whole table can be written and the console prints
everything. -/
theorem exists_run_export (hconsole : t.PrintsAll) (ht : t.Holds path r)
    (hwritable : t.Writable output)
    (hstopped : r.evaluateRoots.2.valuesFile.stopped = none)
    (hfailures : Registry.failures r.evaluateRoots.1 = []) :
    ∃ report t', (run (.exportValues (some path) output) : StateM FileTable Report).run t =
      (report, t') ∧ report.exitCode = 0 := by
  obtain ⟨result, t', hends, hcase⟩ := endsIn_runExport (ends_chooseGiven path t) ht output
  obtain ⟨printed, hrun⟩ := hends.report
  refine ⟨_, t', hrun, ?_⟩
  cases hcase with
  | unprinted hc | unreported hc => exact absurd hconsole hc
  | unwritten hwrite => exact absurd hwrite (hwritable.write_ne_error _ _)
  | cutOff _ hsome => cases hstopped.symm.trans hsome
  | incomplete _ _ hfailed => exact absurd hfailures hfailed
  | complete => rfl

/-- **Exported values.** Where all nodes are below roots and their names are different, a command
that succeeds has written the whole table with one entry for every node: under its name its kind,
its unit if it has one, and the value that it denotes, whatever computed values there were. -/
theorem run_export (ht : t.Holds path r) (hnames : (r.list.map Node.name).Nodup)
    (hreached : ∀ id, r.nodes.contains id = true →
      ∃ root ∈ r.roots, Relation.ReflTransGen (Child (ofNodes r.nodes)) root id)
    {report : Report}
    (hrun : (run (.exportValues (some path) output) : StateM FileTable Report).run t = (report, t'))
    (hexit : report.exitCode = 0) :
    ∃ value : Text → Float,
      (∀ id, r.nodes.contains id = true → ∀ nodes, Registry.SameMeaning r.nodes nodes →
        Registry.Denotes nodes id (.ok (value id))) ∧
      r.evaluateRoots.2.valuesTable = r.tableOf value ∧
      (Toml.written (Toml.pieces (r.tableOf value))).stopped = none ∧
      t'.read output = .ok (Toml.written (Toml.pieces (r.tableOf value))).text.toUTF8 := by
  cases (endsIn_runExport (ends_chooseGiven path t) ht output).of_exitCode hrun hexit with
  | complete hwrite hstopped hfailures =>
    obtain ⟨value, hvalue, hentries⟩ :=
      Registry.exists_value_of_failures ht.recordable hfailures hreached
    have htable := Registry.valuesTable_of_entries hentries hnames
    rw [Registry.valuesFile, htable] at hwrite hstopped
    exact ⟨value, hvalue, htable, hstopped, FileTable.read_write hwrite⟩

/-! ## A factor that is needed twice -/

/-- A factor that a formula needs itself and by way of another one. The computed values of both
formulas are stale, and that of the factor is missing. -/
def shared : Registry Float where
  nodes := ⟨
    [("d", ⟨"d", "d", .formula (some "x + x * f"), [.text "x", .text "f"], [], some 1.0, .null,
       .null⟩),
     ("x", ⟨"x", "x", .formula (some "f * 5"), [.text "f"], ["d"], some 2.0, .null, .text "m"⟩),
     ("f", ⟨"f", "f", .factor 1.0, [], ["d", "x"], none, .null, .text "m"⟩)], by decide⟩
  roots := ["d"]

theorem recordable_shared : shared.Recordable := by decide +kernel

/-- The registry as it is loaded. -/
def loadedShared : Registry Float := shared.evaluateRoots.2

theorem exists_holds_loadedShared : ∃ text, (tableWith text).Holds documentPath loadedShared :=
  exists_holds_of_tallied recordable_shared (by decide +kernel) (by decide +kernel)

/-- Nodes that are all below the first one. -/
theorem reached_of_children {nodes : OrderedMap Text (Node Float)}
    (hkeys : nodes.keys = (["d", "x", "f"] : List Text))
    (hd : Text.ofString "x" ∈ childrenOf (ofNodes nodes) "d")
    (hx : Text.ofString "f" ∈ childrenOf (ofNodes nodes) "x") {id : Text}
    (hid : nodes.contains id = true) :
    ∃ root ∈ (["d"] : List Text), Relation.ReflTransGen (Child (ofNodes nodes)) root id := by
  rw [OrderedMap.contains_iff, hkeys] at hid
  refine ⟨"d", List.mem_singleton_self _, ?_⟩
  simp only [List.mem_cons, List.not_mem_nil, or_false] at hid
  rcases hid with rfl | rfl | rfl
  · exact .refl
  · exact .single hd
  · exact (Relation.ReflTransGen.single hd).tail hx

theorem failures_shared : Registry.failures shared.evaluateRoots.1 = [] := by decide +kernel

/-- What is exported of it. -/
def sharedTable : List (Text × Json Float) :=
  [("values", .object
    [("d", .object [("kind", .text "formula"), ("value", .real 10.0)]),
     ("x", .object [("kind", .text "formula"), ("value", .real 5.0), ("unit", .text "m")]),
     ("f", .object [("kind", .text "factor"), ("value", .real 1.0), ("unit", .text "m")])])]

theorem valuesTable_loadedShared : loadedShared.valuesTable = sharedTable := by
  obtain ⟨value, -, hentries⟩ := Registry.exists_value_of_failures recordable_shared failures_shared
    fun id hid => reached_of_children (by decide) (by decide) (by decide) hid
  have hcomputed : loadedShared.list.map Node.computed = [some 10.0, some 5.0, some 1.0] := by
    decide +kernel
  have htable := Registry.valuesTable_of_entries hentries (by decide)
  have hvalues : loadedShared.list.map Node.computed =
      [some (value "d"), some (value "x"), some (value "f")] := by
    rw [Registry.list, OrderedMap.values]
    exact congrArg (fun es => (es.map Prod.snd).map Node.computed) hentries
  rw [hcomputed] at hvalues
  simp only [List.cons.injEq, Option.some.injEq, and_true] at hvalues
  obtain ⟨hd, hx, hf⟩ := hvalues
  rw [sharedTable, hd, hx, hf]
  exact htable

theorem stopped_sharedTable : (Toml.written (Toml.pieces sharedTable)).stopped = none := by
  rw [Toml.pieces, sharedTable]
  simp only [Toml.blocks, Toml.innerBlocks]
  decide +kernel

/-- The file holds the current values. -/
theorem run_export_shared : ∃ text report t',
    (run (.exportValues (some documentPath) ⟨"", ["v.toml"]⟩) : StateM FileTable Report).run
      (tableWith text) = (report, t') ∧ report.exitCode = 0 ∧
    t'.read ⟨"", ["v.toml"]⟩ = .ok (Toml.written (Toml.pieces sharedTable)).text.toUTF8 := by
  obtain ⟨text, hholds⟩ := exists_holds_loadedShared
  have hagain : loadedShared.evaluateRoots = shared.evaluateRoots :=
    Registry.evaluateEach_twice shared shared.roots
  have htable : loadedShared.evaluateRoots.2.valuesTable = sharedTable := by
    rw [hagain]
    exact valuesTable_loadedShared
  have hwritable : (tableWith text).Writable ⟨"", ["v.toml"]⟩ := fun _ => ⟨_, rfl⟩
  obtain ⟨report, t', hrun, hexit⟩ := exists_run_export (printsAll_tableWith text) hholds hwritable
    (by rw [Registry.valuesFile, htable]; exact stopped_sharedTable)
    (by rw [hagain]; exact failures_shared)
  obtain ⟨value, -, hvalues, -, hread⟩ := run_export hholds (by decide +kernel)
    (fun id hid => reached_of_children (by decide +kernel) (by decide +kernel) (by decide +kernel)
      hid) hrun hexit
  rw [← hvalues, htable] at hread
  exact ⟨text, report, t', hrun, hexit, hread⟩

end Command

end FormulaGraph
