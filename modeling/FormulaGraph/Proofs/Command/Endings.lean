import FormulaGraph.Proofs.Command.Assign
import FormulaGraph.Proofs.Display.Printed
import FormulaGraph.Proofs.Solver.Reached
/-!
# Commands on loaded documents

What a document says of links is not checked when it is loaded: roots and children may not exist,
and formulas may need themselves. The commands expect that, with one exception. Whatever else fails
is said, and the command ends by itself (`Settles`); but a factor cannot be given a value while a
root does not exist, since the warning about a root that failed needs its name. What a command says
is said on a console that prints everything.

* `prints_runTrees`, `settles_runEvaluate`, `settles_runSolve`, `settles_runCheck`: commands that
  always end by themselves.
* `run_ends`: when a command breaks off.
-/
namespace FormulaGraph.Command

open Work

variable {t : FileTable} {path : Path} {r : Registry Float} {document : Option Path}

theorem settles_lookUp {β : Type} {name : Text} {f : Node Float → Work (StateM FileTable) β}
    (h : ∀ n, r.resolve name = .ok n → Settles (f n) t) : Settles (lookUp r name >>= f) t := by
  cases hresolve : r.resolve name with
  | error e => exact settles_of_failed (prints_lookUp_of_error hresolve t).stop
  | ok n => exact (ends_lookUp hresolve t).prints.settles (h n hresolve)

/-! ## Trees -/

theorem prints_printRoot (hr : r.Recordable) (id : Text) (o : Outcome Float) (t : FileTable) :
    Prints (printRoot r id o) t (.ok ()) t := by
  unfold printRoot
  cases hd : r.display id with
  | none => exact prints_say _ t
  | some d =>
    obtain ⟨e, he⟩ := Display.exists_tree_display hr hd (Registry.failure? o)
    cases o <;> exact (ends_shown he t).prints.bind (prints_print e t)

/-- The trees are printed whatever became of the roots. -/
theorem prints_runTrees (hchoose : Ends (chooseDocument document) t (.ok path) t)
    (ht : t.Holds path r) : Prints (runTrees document) t (.ok ()) t := by
  have hr : r.evaluateRoots.2.Recordable := ht.recordable.evaluateEach _
  unfold runTrees
  refine hchoose.prints.bind ((prints_loadDocument ht).bind ((prints_print _ t).bind ?_))
  split
  · exact prints_print _ t
  · exact prints_forM fun e _ => prints_printRoot hr e.1 e.2 t

/-! ## Tables -/

theorem settles_printTable {ns : List (Node Float)} (hns : ∀ n ∈ ns, n.Recordable)
    (evaluations : Evaluations Float) (t : FileTable) :
    Settles (printTable r (ns.map r.row) evaluations) t := by
  obtain ⟨es, hes⟩ := Display.exists_table (r := r) hns
  unfold printTable
  refine (prints_print _ t).settles ((ends_shown hes t).prints.settles ?_)
  refine (prints_forM fun e _ => prints_print e t).settles ?_
  cases Registry.failures evaluations with
  | nil => exact settles_of_prints (ends_pure () t).prints
  | cons e failed =>
    refine (prints_print _ t).settles (Prints.settles (prints_forM fun e _ => prints_say _ t) ?_)
    exact settles_of_failed (ends_fail t).prints

theorem settles_runEvaluate (hchoose : Ends (chooseDocument document) t (.ok path) t)
    (ht : t.Holds path r) (node : Option Text) : Settles (runEvaluate document node) t := by
  unfold runEvaluate
  refine hchoose.prints.settles ((prints_loadDocument ht).settles ?_)
  cases node with
  | none =>
    have hr := ht.recordable.evaluateEach r.roots
    exact settles_printTable hr.list _ t
  | some name =>
    refine settles_lookUp fun n _ => settles_lookUp fun m hm => ?_
    have hmem := List.mem_of_mem_filter ((resolve_eq_ok_iff.1 hm).symm ▸ List.mem_singleton_self m)
    have hrecordable := (ht.recordable.evaluate n.id).list m hmem
    have hone : ∀ k ∈ [m], k.Recordable := List.forall_mem_singleton.2 hrecordable
    exact settles_printTable hone _ t

/-! ## Solving -/

/-- A registry whose nodes have records is saved where it can be, and that can be said. -/
theorem settles_save (hr : r.Recordable) {output : Path} (hwritable : t.Writable output)
    (markup : Text) : Settles (save r output >>= fun _ => say markup) t := by
  intro hconsole
  obtain ⟨-, text, htext, -⟩ := exists_fileText hr t.exportDate
  obtain ⟨t', hwrite⟩ := hwritable text
  have hsaid := (prints_say markup t').ends (hconsole.write hwrite)
  exact ⟨_, t', (ends_save htext hwrite).bind hsaid, fun _ he => nomatch he⟩

theorem settles_applyAndSave (hr : r.Recordable) (child : Text) (s : Solved Float) {output : Path}
    (hwritable : t.Writable output) : Settles (applyAndSave r child s output) t := by
  unfold applyAndSave
  rcases happlied : r.applySolution child s with ⟨f | evaluations, r'⟩
  · exact settles_of_failed (prints_failWith _ t)
  · obtain ⟨v, n, -, hn, hformula, hroots⟩ := Registry.applySolution_eq_ok_iff.1 happlied
    have hassigned := hr.assign hn (Node.isFactor_of_not_isFormula hformula) v
    obtain rfl : (r.assign child v).evaluateRoots.2 = r' := congrArg Prod.snd hroots
    exact settles_save (hassigned.evaluateEach _) hwritable _

theorem settles_runSolve {config : Config Float} (hconfig : t.configuration = .ok config)
    (hchoose : Ends (chooseDocument document) t (.ok path) t) (ht : t.Holds path r)
    (parent child : Text) (target : Float) {apply : Bool} {output : Option Path}
    (hwritable : apply = true → t.Writable (output.getD path)) :
    Settles (runSolve document parent child target apply output) t := by
  unfold runSolve
  refine hchoose.prints.settles ((prints_loadDocument ht).settles ?_)
  refine settles_lookUp fun p _ => settles_lookUp fun c _ => ?_
  refine (ends_configuration hconfig).prints.settles ((prints_print _ t).settles ?_)
  split
  · exact settles_of_failed (prints_failWith _ t)
  · refine (prints_print _ t).settles ?_
    cases apply with
    | false => exact settles_of_prints (ends_pure () t).prints
    | true => exact settles_applyAndSave ht.recordable c.id _ (hwritable rfl)

/-! ## Inconsistencies -/

theorem settles_runCheck (hchoose : Ends (chooseDocument document) t (.ok path) t)
    (ht : t.Holds path r) : Settles (runCheck document) t := by
  unfold runCheck
  refine hchoose.prints.settles ((prints_loadDocument ht).settles ((prints_print _ t).settles ?_))
  split
  · exact settles_of_prints (prints_say _ t)
  · refine Prints.settles (prints_forM fun v _ => prints_say _ t) ((prints_print _ t).settles ?_)
    exact settles_of_failed (prints_failWith _ t)

/-! ## All of them -/

/-- The document of a command that shows, checks or changes one. -/
def document? (config : Config Float) : Command → Option Path
  | .trees document | .evaluate document _ | .assign _ _ document _ | .solve document _ _ _ _ _
  | .check document => document.or config.document
  | .sample _ | .exportValues _ _ => none

/-- The file in which a command saves what it has made of the document at the path. -/
def saves? (path : Path) : Command → Option Path
  | .assign _ _ _ output | .solve _ _ _ _ true output => some (output.getD path)
  | _ => none

/-- The command gives a factor a value, and there is a root that does not exist. -/
def Stumbles (r : Registry Float) : Command → Prop
  | .assign name _ _ _ => (∃ id, r.Targets name id) ∧ ∃ root ∈ r.roots, r.node? root = none
  | _ => False

/-- How a command ends on a document that was loaded as the registry. -/
structure EndsWell (t : FileTable) (r : Registry Float) (c : Command)
    (result : Except Ending Unit) (t' : FileTable) : Prop where
  settles : ¬c.Stumbles r → ∀ e, result = .error e → e = .failed
  breaksOff : c.Stumbles r → t' = t ∧
    ∃ root ∈ r.roots, r.node? root = none ∧ result = .error (.crashed (.missingNode root))

theorem endsWell_of_settles (hconsole : t.PrintsAll) {c : Command} (hc : ¬c.Stumbles r)
    (h : Settles c.work t) : EndsIn c.work t (EndsWell t r c) := by
  obtain ⟨result, t', hends, hresult⟩ := h hconsole
  exact ⟨result, t', hends, fun _ => hresult, fun hstumbles => absurd hstumbles hc⟩

theorem endsWell_runAssign (hconsole : t.PrintsAll)
    (hchoose : Ends (chooseDocument document) t (.ok path) t) (ht : t.Holds path r)
    (name : Text) (value : Float) {output : Option Path}
    (hwritable : t.Writable (output.getD path)) :
    EndsIn (runAssign name value document output) t
      (EndsWell t r (.assign name value document output)) := by
  obtain ⟨result, t', hends, hcase⟩ := endsIn_runAssign hchoose ht name value output
  refine ⟨result, t', hends, ?_⟩
  cases hcase with
  | unprinted hc | unreported hc => exact absurd hconsole hc
  | refused h =>
    exact ⟨fun _ e he => (Except.error.inj he).symm, fun hstumbles => absurd hstumbles.1 h⟩
  | stumbled h hroot hnone =>
    exact ⟨fun hnot => absurd ⟨⟨_, h⟩, _, hroot, hnone⟩ hnot,
      fun _ => ⟨rfl, _, hroot, hnone, rfl⟩⟩
  | unsaved _ _ hwrite => exact absurd hwrite (hwritable.write_ne_error _ _)
  | saved _ hroots =>
    refine ⟨fun _ e he => (nomatch he), fun hstumbles => ?_⟩
    obtain ⟨-, root, hroot, hnone⟩ := hstumbles
    exact absurd (hroots root hroot) (Registry.node?_eq_none_iff.1 hnone)

theorem endsWell_work {config : Config Float} (hconsole : t.PrintsAll)
    (hconfig : t.configuration = .ok config) {c : Command}
    (hpath : c.document? config = some path) (ht : t.Holds path r)
    (hwritable : ∀ output, c.saves? path = some output → t.Writable output) :
    EndsIn c.work t (EndsWell t r c) := by
  cases c with
  | sample _ | exportValues _ _ => cases hpath
  | trees _ =>
    exact endsWell_of_settles hconsole id
      (settles_of_prints (prints_runTrees (ends_chooseDocument hconfig hpath) ht))
  | evaluate _ node =>
    exact endsWell_of_settles hconsole id
      (settles_runEvaluate (ends_chooseDocument hconfig hpath) ht node)
  | assign name value _ output =>
    exact endsWell_runAssign hconsole (ends_chooseDocument hconfig hpath) ht name value
      (hwritable _ rfl)
  | solve _ parent child target apply output =>
    refine endsWell_of_settles hconsole id (settles_runSolve hconfig
      (ends_chooseDocument hconfig hpath) ht parent child target fun happly => hwritable _ ?_)
    rw [happly]
    rfl
  | check _ =>
    exact endsWell_of_settles hconsole id
      (settles_runCheck (ends_chooseDocument hconfig hpath) ht)

/-- **How commands end.** On a console that prints everything, and on a document that can be loaded,
whatever it says of links, a command that shows, checks or changes it comes to its end, or fails
after it has said why. It only breaks off when it gives a factor a value while a root does not
exist; then nothing is saved. -/
theorem run_ends {config : Config Float} (hconsole : t.PrintsAll)
    (hconfig : t.configuration = .ok config) {c : Command}
    (hpath : c.document? config = some path) (ht : t.Holds path r)
    (hwritable : ∀ output, c.saves? path = some output → t.Writable output) :
    ∃ report t', (run c : StateM FileTable Report).run t = (report, t') ∧
      (¬c.Stumbles r →
        report.ending = none ∧ report.exitCode = 0 ∨
        report.ending = some .failed ∧ report.exitCode = 1) ∧
      (c.Stumbles r → t' = t ∧ ∃ root ∈ r.roots, r.node? root = none ∧
        report.ending = some (.crashed (.missingNode root))) := by
  obtain ⟨result, t', hends, hwell⟩ := endsWell_work hconsole hconfig hpath ht hwritable
  obtain ⟨printed, hrun⟩ := hends.report
  refine ⟨_, t', hrun, fun hnot => ?_, fun hstumbles => ?_⟩
  · cases result with
    | ok _ => exact .inl ⟨rfl, rfl⟩
    | error e =>
      obtain rfl := hwell.settles hnot e rfl
      exact .inr ⟨rfl, rfl⟩
  · obtain ⟨htable, root, hroot, hnone, rfl⟩ := hwell.breaksOff hstumbles
    exact ⟨htable, root, hroot, hnone, rfl⟩

/-! ## A root that does not exist -/

/-- A factor, and a root that does not exist. -/
def rootless : Registry Float where
  nodes := ⟨[("a", ⟨"a", "a", .factor 1.0, [], [], some 1.0, .null, .null⟩)], by decide⟩
  roots := ["gone"]

theorem node?_gone : rootless.node? "gone" = none := by decide +kernel

theorem exists_holds_rootless : ∃ text, (tableWith text).Holds documentPath rootless := by
  have hloaded := exists_holds_of_tallied (q := rootless) (by decide +kernel) (by decide +kernel)
    (by decide +kernel)
  rwa [Registry.evaluateRoots_of_missing (by simpa [rootless] using node?_gone)] at hloaded

theorem configuration_tableWith (text : String) :
    (tableWith text).configuration = .ok (.standard none) := rfl

theorem stumbles_rootless : (Command.assign "a" 5.0 (some documentPath) none).Stumbles rootless :=
  ⟨⟨"a", _, _, rfl, rfl, rfl, rfl⟩, "gone", by decide, node?_gone⟩

/-- No value is given to the factor, but evaluating the registry ends with a failure that is said or
with none. -/
theorem run_ends_rootless : ∃ text,
    (∃ report, (run (.assign "a" 5.0 (some documentPath) none) : StateM FileTable Report).run
      (tableWith text) = (report, tableWith text) ∧
      report.ending = some (.crashed (.missingNode "gone"))) ∧
    ∃ report t', (run (.evaluate (some documentPath) none) : StateM FileTable Report).run
      (tableWith text) = (report, t') ∧
      (report.ending = none ∧ report.exitCode = 0 ∨
        report.ending = some .failed ∧ report.exitCode = 1) := by
  obtain ⟨text, hholds⟩ := exists_holds_rootless
  refine ⟨text, ?_, ?_⟩
  · obtain ⟨report, t', hrun, -, hbreaks⟩ := run_ends (printsAll_tableWith text)
      (configuration_tableWith text) (c := .assign "a" 5.0 (some documentPath) none) rfl hholds
      (by rintro _ ⟨⟩; exact writable_tableWith text)
    obtain ⟨rfl, root, hroot, -, hending⟩ := hbreaks stumbles_rootless
    obtain rfl := List.mem_singleton.1 hroot
    exact ⟨report, hrun, hending⟩
  · obtain ⟨report, t', hrun, hends, -⟩ := run_ends (printsAll_tableWith text)
      (configuration_tableWith text) (c := .evaluate (some documentPath) none) rfl hholds
      (by rintro _ ⟨⟩)
    exact ⟨report, t', hrun, hends id⟩

/-- The document can be loaded and saved, and the command breaks off. -/
theorem run_assign_rootless : ∃ text,
    (tableWith text).PrintsAll ∧ (tableWith text).configuration = .ok (.standard none) ∧
    (tableWith text).Holds documentPath rootless ∧ (tableWith text).Writable documentPath ∧
    ∃ report t', (run (.assign "a" 5.0 (some documentPath) none) : StateM FileTable Report).run
      (tableWith text) = (report, t') ∧
      report.ending = some (.crashed (.missingNode "gone")) := by
  obtain ⟨text, hholds⟩ := exists_holds_rootless
  obtain ⟨result, t', hends, hwell⟩ := endsWell_work (printsAll_tableWith text)
    (configuration_tableWith text) (c := .assign "a" 5.0 (some documentPath) none) rfl hholds
    (by rintro _ ⟨⟩; exact writable_tableWith text)
  obtain ⟨-, root, hroot, -, rfl⟩ := hwell.breaksOff stumbles_rootless
  obtain rfl := List.mem_singleton.1 hroot
  obtain ⟨printed, hrun⟩ := hends.report
  exact ⟨text, printsAll_tableWith text, configuration_tableWith text, hholds,
    writable_tableWith text, _, t', hrun, rfl⟩

end FormulaGraph.Command
