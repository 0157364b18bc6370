import FormulaGraph.Proofs.Command.Steps
/-!
# Giving a factor a value

The command loads a document, finds the factor by its name, gives it the value and saves the
registry. A warning about a root needs its name, so the command breaks off where a root does not
exist. Where the document has no violations, all roots exist: the command gets through to saving,
and what is saved and loaded again is evaluated once more, which changes nothing
(`evaluateEach_twice`). All this is so on a console that prints everything. The last line comes
after saving, and where the console refuses that one the command breaks off with the file changed.

The computed value of the factor is replaced with its value, also where no root depends on it and no
evaluation comes to it.

* `endsIn_runAssign`: everything that the command can come to.
* `ends_runAssign_refused`, `ends_runAssign_loaded`: its two ends on such a document.
* `runAssign_saves`: the command on a document without violations.
* `runAssign_unreached_unprinted`: a factor that no root depends on, and a last line that is
  refused.
-/
namespace FormulaGraph

open Work

/-- A value that is given to the name goes to the factor that is stored under the id of the only
node of that name. -/
def Registry.Targets (r : Registry Float) (name id : Text) : Prop :=
  ∃ n m, r.named name = [n] ∧ n.id = id ∧ r.node? id = some m ∧ m.isFactor = true

theorem Registry.Targets.unique {r : Registry Float} {name id id' : Text} (h : r.Targets name id)
    (h' : r.Targets name id') : id = id' := by
  obtain ⟨n, -, hn, rfl, -⟩ := h
  obtain ⟨n', -, hn', rfl, -⟩ := h'
  exact congrArg Node.id (List.singleton_inj.1 (hn.symm.trans hn'))

namespace Command

/-- The only node of a name decides whether the name stands for a factor. -/
theorem exists_targets_iff {r : Registry Float} {name : Text} {n : Node Float}
    (hnamed : r.named name = [n]) :
    (∃ id, r.Targets name id) ↔ ∃ m, r.node? n.id = some m ∧ m.isFactor = true := by
  constructor
  · rintro ⟨id, n', m, hn', rfl, hm, hfactor⟩
    obtain rfl : n = n' := List.singleton_inj.1 (hnamed.symm.trans hn')
    exact ⟨m, hm, hfactor⟩
  · rintro ⟨m, hm, hfactor⟩
    exact ⟨n.id, n, m, hnamed, rfl, hm, hfactor⟩

variable {t t' : FileTable} {path : Path} {r : Registry Float} {name : Text} {n : Node Float}

/-! ## The command -/

/-- The registry with the value in place of that of a factor can be saved. -/
theorem recordable_assign_of_targets (hr : r.Recordable) {id : Text} (h : r.Targets name id)
    (value : Float) : (r.assign id value).evaluateRoots.2.Recordable := by
  obtain ⟨n, m, -, -, hm, hfactor⟩ := h
  exact (hr.assign hm hfactor value).evaluateEach _

theorem contains_assign (r : Registry Float) (id root : Text) (value : Float) :
    (r.assign id value).evaluateRoots.2.nodes.contains root = r.nodes.contains root := by
  have hnames := Registry.agreeOn_name_assign r id value
  have hsame := Registry.agreeOn_evaluateEach (r.assign id value) (r.assign id value).roots
  rw [Registry.evaluateRoots, hsame.contains, hnames.contains]

/-- The warnings come to an end if all roots exist, and else break off at one that does not. -/
theorem prints_warnings (r : Registry Float) (id : Text) (value : Float) (t : FileTable) :
    ∃ result, Prints ((Registry.failures (r.assign id value).evaluateRoots.1).forM fun e =>
        warnRoot (r.assign id value).evaluateRoots.2 e.1 e.2) t result t ∧
      (result = .ok () ∧ (∀ root ∈ r.roots, r.nodes.contains root = true) ∨
        ∃ root ∈ r.roots, r.node? root = none ∧
          result = .error (.crashed (.missingNode root))) := by
  have hgood : ∀ e ∈ Registry.failures (r.assign id value).evaluateRoots.1,
      r.nodes.contains e.1 = true →
      Prints (warnRoot (r.assign id value).evaluateRoots.2 e.1 e.2) t (.ok ()) t := by
    intro e _ hexists
    rw [← contains_assign r id e.1 value] at hexists
    obtain ⟨k, hk⟩ := Registry.contains_iff_node?.1 hexists
    unfold warnRoot
    rw [hk]
    exact prints_say _ t
  by_cases hroots : ∀ root ∈ r.roots, r.nodes.contains root = true
  · -- a root that failed is one of the roots
    exact ⟨_, prints_forM fun e he => hgood e he (hroots e.1 (Registry.mem_failures_iff.1 he).1),
      .inl ⟨rfl, hroots⟩⟩
  · have hstop : ∀ e ∈ Registry.failures (r.assign id value).evaluateRoots.1,
        ¬r.nodes.contains e.1 = true →
        Prints (warnRoot (r.assign id value).evaluateRoots.2 e.1 e.2) t
          (.error (.crashed (.missingNode e.1))) t := by
      intro e _ hmissing
      rw [← contains_assign r id e.1 value] at hmissing
      unfold warnRoot
      rw [Registry.node?_eq_none_iff.2 hmissing]
      exact (ends_crash _ t).prints
    -- and one that does not exist fails
    have hsome : ∃ e ∈ Registry.failures (r.assign id value).evaluateRoots.1,
        ¬r.nodes.contains e.1 = true := by
      simp only [not_forall] at hroots
      obtain ⟨root, hroot, hmissing⟩ := hroots
      refine ⟨(root, .nodeNotFound root), Registry.mem_failures_iff.2 ⟨hroot, ?_⟩, hmissing⟩
      rw [← (Registry.agreeOn_name_assign r id value).contains] at hmissing
      rw [Registry.evaluate_eq]
      exact Registry.outcomeAlong_of_none (Registry.node?_eq_none_iff.2 hmissing) []
    obtain ⟨e, he, hmissing, hends⟩ := prints_forM_of_stop hgood hstop hsome
    exact ⟨_, hends, .inr ⟨e.1, (Registry.mem_failures_iff.1 he).1,
      Registry.node?_eq_none_iff.2 hmissing, rfl⟩⟩

/-- The ways in which giving a value by name ends; `output` is where the registry is saved. -/
inductive Assigns (t : FileTable) (r : Registry Float) (name : Text) (value : Float)
    (output : Path) : Except Ending Unit → FileTable → Prop where
  /-- The console refuses a line before anything is saved. -/
  | unprinted {why : MarkupError} (hconsole : ¬t.PrintsAll) :
      Assigns t r name value output (.error (.crashed (.markup why))) t
  | refused (h : ¬∃ id, r.Targets name id) : Assigns t r name value output (.error .failed) t
  /-- One of the roots to warn about does not exist. -/
  | stumbled {id root : Text} (h : r.Targets name id) (hroot : root ∈ r.roots)
      (hnone : r.node? root = none) :
      Assigns t r name value output (.error (.crashed (.missingNode root))) t
  | unsaved {id : Text} {text : String} {e : FileError} (h : r.Targets name id)
      (htext : (r.assign id value).evaluateRoots.2.fileText t.exportDate = .ok text)
      (hwrite : t.write output text = .error e) :
      Assigns t r name value output (.error (.crashed (.file e))) t
  | saved {id : Text} {text : String} {t' : FileTable} (h : r.Targets name id)
      (hroots : ∀ root ∈ r.roots, r.nodes.contains root = true)
      (htext : (r.assign id value).evaluateRoots.2.fileText t.exportDate = .ok text)
      (hwrite : t.write output text = .ok t') : Assigns t r name value output (.ok ()) t'
  /-- The console refuses the line that says so. -/
  | unreported {t' : FileTable} {why : MarkupError} (hconsole : ¬t.PrintsAll)
      (hsaved : Assigns t r name value output (.ok ()) t') :
      Assigns t r name value output (.error (.crashed (.markup why))) t'

/-- Everything that the command can come to. -/
theorem endsIn_runAssign {document : Option Path}
    (hchoose : Ends (chooseDocument document) t (.ok path) t) (ht : t.Holds path r) (name : Text)
    (value : Float) (output : Option Path) :
    EndsIn (runAssign name value document output) t
      (Assigns t r name value (output.getD path)) := by
  unfold runAssign
  refine hchoose.next ((prints_loadDocument ht).next (fun hc _ => .unprinted hc) ?_)
  cases hresolve : r.resolve name with
  | error e =>
    refine (prints_lookUp_of_error hresolve t).stop.last (fun hc _ => .unprinted hc) (.refused ?_)
    rintro ⟨-, n, -, hnamed, -⟩
    cases hresolve.symm.trans (resolve_eq_ok_iff.2 hnamed)
  | ok n =>
    have htargets := exists_targets_iff (resolve_eq_ok_iff.1 hresolve)
    refine (ends_lookUp hresolve t).next ?_
    cases hm : r.node? n.id with
    | none =>
      rw [Registry.update_of_none hm]
      refine (prints_failWith _ t).last (fun hc _ => .unprinted hc) (.refused fun h => ?_)
      obtain ⟨m, hm', -⟩ := htargets.1 h
      cases hm.symm.trans hm'
    | some m =>
      cases hkind : m.kind with
      | formula =>
        rw [Registry.update_value_of_formula hm (beq_iff_eq.2 hkind)]
        refine (prints_failWith _ t).last (fun hc _ => .unprinted hc) (.refused fun h => ?_)
        obtain ⟨m', hm', hfactor⟩ := htargets.1 h
        obtain rfl : m = m' := Option.some.inj (hm.symm.trans hm')
        cases hkind.symm.trans (Node.isFactor_iff.1 hfactor)
      | factor =>
        have hfactor : m.isFactor = true := Node.isFactor_iff.2 hkind
        have htarget : r.Targets name n.id :=
          ⟨n, m, resolve_eq_ok_iff.1 hresolve, rfl, hm, hfactor⟩
        rw [Registry.update_value hm hfactor]
        obtain ⟨_, hwarns, hwarned⟩ := prints_warnings r n.id value t
        rcases hwarned with ⟨rfl, hroots⟩ | ⟨root, hroot, hnone, rfl⟩
        · obtain ⟨-, text, htext, -⟩ := exists_fileText
            (recordable_assign_of_targets ht.recordable htarget value) t.exportDate
          refine hwarns.next (fun hc _ => .unprinted hc) ?_
          cases hwrite : t.write (output.getD path) text with
          | error e =>
            exact ⟨_, t, (ends_save_of_error htext hwrite).stop, .unsaved htarget htext hwrite⟩
          | ok t' =>
            have hsaved : Assigns t r name value (output.getD path) (.ok ()) t' :=
              .saved htarget hroots htext hwrite
            refine (ends_save htext hwrite).next ((prints_say _ t').last (fun hc _ => ?_) hsaved)
            exact .unreported (fun hprints => hc (hprints.write hwrite)) hsaved
        · exact hwarns.stop.last (fun hc _ => .unprinted hc) (.stumbled htarget hroot hnone)

/-- The registry with the value is saved if all roots exist and the file can be written. -/
theorem ends_runAssign_saved {document : Option Path} (hconsole : t.PrintsAll)
    (hchoose : Ends (chooseDocument document) t (.ok path) t) (ht : t.Holds path r) {id : Text}
    (htarget : r.Targets name id) (hroots : ∀ root ∈ r.roots, r.nodes.contains root = true)
    (value : Float) {output : Option Path} (hwritable : t.Writable (output.getD path)) :
    ∃ t' text, Ends (runAssign name value document output) t (.ok ()) t' ∧
      (r.assign id value).evaluateRoots.2.fileText t.exportDate = .ok text ∧
      t.write (output.getD path) text = .ok t' := by
  obtain ⟨_, t', hends, hcase⟩ := endsIn_runAssign hchoose ht name value output
  cases hcase with
  | unprinted hc | unreported hc => exact absurd hconsole hc
  | refused h => exact absurd ⟨id, htarget⟩ h
  | stumbled _ hroot hnone =>
    exact absurd (hroots _ hroot) (Registry.node?_eq_none_iff.1 hnone)
  | unsaved _ _ hwrite => exact absurd hwrite (hwritable.write_ne_error _ _)
  | saved h _ htext hwrite =>
    obtain rfl := h.unique htarget
    exact ⟨t', _, hends, htext, hwrite⟩

/-- Where the name does not stand for a factor alone, nothing is saved. -/
theorem ends_runAssign_refused (hconsole : t.PrintsAll) (ht : t.Holds path r)
    (hr : Registry.Stored r)
    (hname : ¬∃ n, r.named name = [n] ∧ n.isFactor = true) (value : Float)
    (output : Option Path) :
    Ends (runAssign name value (some path) output) t (.error .failed) t := by
  have hnone : ∀ id, ¬r.Targets name id := by
    rintro id ⟨n, m, hnamed, rfl, hm, hfactor⟩
    obtain rfl := Option.some.inj ((node?_of_named hr hnamed).symm.trans hm)
    exact hname ⟨n, hnamed, hfactor⟩
  obtain ⟨_, _, hends, hcase⟩ := endsIn_runAssign (ends_chooseGiven path t) ht name value output
  cases hcase with
  | unprinted hc | unreported hc => exact absurd hconsole hc
  | refused => exact hends
  | stumbled h | unsaved h | saved h => exact absurd h (hnone _)

/-- The file that is saved then is loaded as the registry with the new value. -/
theorem ends_runAssign_loaded (hconsole : t.PrintsAll) (ht : t.Holds path r)
    (hr : r.violations = []) (hnamed : r.named name = [n]) (hfactor : n.isFactor = true)
    (value : Float) (output : Option Path) (hwritable : t.Writable (output.getD path))
    (hjson : ∀ doc, (r.assign n.id value).evaluateRoots.2.document t.exportDate = .ok doc →
      Json.read (.ofString (doc.toText (some 2) ++ "\n")) = .ok doc) :
    ∃ t' bytes, Ends (runAssign name value (some path) output) t (.ok ()) t' ∧
      t'.read (output.getD path) = .ok bytes ∧ ∀ s : Registry Float,
        s.loadBytes bytes false = (.ok (), (r.assign n.id value).evaluateRoots.2) := by
  have hsound := Registry.sound_of_violations_eq_nil hr
  have hnode := node?_of_named hsound.stored hnamed
  have htarget : r.Targets name n.id := ⟨n, n, hnamed, rfl, hnode, hfactor⟩
  obtain ⟨t', text, hends, htext, hwrite⟩ := ends_runAssign_saved hconsole
    (ends_chooseGiven path t) ht htarget hsound.inStep.roots_exist value hwritable
  have hrecordable := recordable_assign_of_targets ht.recordable htarget value
  obtain ⟨text', htext', hagain⟩ := Registry.loadBytes_fileText hrecordable t.exportDate hjson
  obtain rfl := Except.ok.inj (htext.symm.trans htext')
  refine ⟨t', _, hends, FileTable.read_write hwrite, fun s => ?_⟩
  have hroots : (r.assign n.id value).evaluateRoots.2.roots = (r.assign n.id value).roots :=
    (Registry.agreeOn_evaluateEach (r.assign n.id value) (r.assign n.id value).roots).roots
  rw [hagain, Registry.evaluateRoots, hroots, Registry.evaluateRoots,
    Registry.evaluateEach_twice (r.assign n.id value)]

/-- **Giving a factor a value by name.** On a console that prints everything, and on a document
without violations, the command fails and changes no file, unless the name stands for a factor and
nothing else. Then it succeeds, and the file that it writes is loaded as the registry with the value
as value and computed value of the factor and all roots evaluated from there. No root, no key and no
other node has changed in anything but computed values. -/
theorem runAssign_saves (hconsole : t.PrintsAll) (ht : t.Holds path r) (hr : r.violations = [])
    (name : Text) (value : Float) (output : Option Path)
    (hwritable : t.Writable (output.getD path))
    (hjson : ∀ n, r.named name = [n] → n.isFactor = true → ∀ doc,
      (r.assign n.id value).evaluateRoots.2.document t.exportDate = .ok doc →
      Json.read (.ofString (doc.toText (some 2) ++ "\n")) = .ok doc) :
    ∃ report t',
      (run (.assign name value (some path) output) : StateM FileTable Report).run t =
        (report, t') ∧
      ((¬∃ n, r.named name = [n] ∧ n.isFactor = true) →
        report.ending = some .failed ∧ report.exitCode = 1 ∧ t' = t) ∧
      ∀ n, r.named name = [n] → n.isFactor = true →
        report.ending = none ∧ report.exitCode = 0 ∧
        (∃ bytes, t'.read (output.getD path) = .ok bytes ∧ ∀ s : Registry Float,
          s.loadBytes bytes false = (.ok (), (r.assign n.id value).evaluateRoots.2)) ∧
        (r.assign n.id value).evaluateRoots.2.roots = r.roots ∧
        (r.assign n.id value).evaluateRoots.2.nodes.keys = r.nodes.keys ∧
        ∀ id m, r.node? id = some m →
          ∃ m', (r.assign n.id value).evaluateRoots.2.node? id = some m' ∧
            m'.unevaluated =
              (if id = n.id then { m with body := .factor value } else m).unevaluated := by
  have hstored := (Registry.sound_of_violations_eq_nil hr).stored
  by_cases hname : ∃ n, r.named name = [n] ∧ n.isFactor = true
  · obtain ⟨n, hnamed, hfactor⟩ := hname
    obtain ⟨t', bytes, hends, hread, hload⟩ :=
      ends_runAssign_loaded hconsole ht hr hnamed hfactor value output hwritable
        (hjson n hnamed hfactor)
    obtain ⟨printed, hrun⟩ := hends.report
    refine ⟨_, t', hrun, fun hnot => absurd ⟨n, hnamed, hfactor⟩ hnot, fun m hm _ => ?_⟩
    obtain rfl : m = n := List.singleton_inj.1 (hm.symm.trans hnamed)
    exact ⟨rfl, rfl, ⟨bytes, hread, hload⟩, Registry.evaluateRoots_assign r m.id value⟩
  · obtain ⟨printed, hrun⟩ :=
      (ends_runAssign_refused hconsole ht hstored hname value output).report
    exact ⟨_, t, hrun, fun _ => ⟨rfl, rfl, rfl⟩, fun n hnamed hfactor =>
      absurd ⟨n, hnamed, hfactor⟩ hname⟩

/-! ## A tally -/

/-- A formula that takes a factor twice, and a factor that is not needed for it. -/
def tally : Registry Float where
  nodes := ⟨
    [("a", ⟨"a", "a", .factor 1.0, [], ["p"], some 1.0, .null, .null⟩),
     ("b", ⟨"b", "b", .factor 1.0, [], [], some 1.0, .null, .null⟩),
     ("p", ⟨"p", "p", .formula (some "a + a"), [.text "a"], [], some 2.0, .null, .null⟩)],
    by decide⟩
  roots := ["p"]

theorem recordable_tally : tally.Recordable := by decide +kernel

/-- The numbers in the tally and in what is made of it. -/
abbrev IsTallied (x : Float) : Prop := x = 1.0 ∨ x = 2.0 ∨ x = 5.0 ∨ x = 10.0

theorem IsTallied.literal {x : Float} (h : IsTallied x) : Json.Literal (.real x) := by
  rcases h with rfl | rfl | rfl | rfl
  · exact Json.literal_real (show _ = ['1', '.', '0'] by decide +kernel) (by decide)
      (fun _ => rfl) (by rfl)
  · exact Json.literal_real (show _ = ['2', '.', '0'] by decide +kernel) (by decide)
      (fun _ => rfl) (by rfl)
  · exact Json.literal_real (show _ = ['5', '.', '0'] by decide +kernel) (by decide)
      (fun _ => rfl) (by rfl)
  · exact Json.literal_real (show _ = ['1', '0', '.', '0'] by decide +kernel) (by decide)
      (fun _ => rfl) (by rfl)

theorem exists_holds_of_tallied {q : Registry Float} (hq : q.Recordable)
    (htexts : ∀ t ∈ q.texts, t.Apart) (hnumbers : ∀ x ∈ q.numbers, IsTallied x) :
    ∃ text, (tableWith text).Holds documentPath q.evaluateRoots.2 :=
  exists_holds_tableWith hq htexts fun x hx => (hnumbers x hx).literal

/-- The tally as it is loaded. -/
def loadedTally : Registry Float := tally.evaluateRoots.2

theorem violations_loadedTally : loadedTally.violations = [] := by decide +kernel

theorem exists_holds_loadedTally : ∃ text, (tableWith text).Holds documentPath loadedTally :=
  exists_holds_of_tallied recordable_tally (by decide +kernel) (by decide +kernel)

theorem id_of_named {name : Text} {n : Node Float} (h : loadedTally.named name = [n]) :
    n.id = name := by
  have hids : ∀ m ∈ loadedTally.nodes.values, m.id = m.name := by decide +kernel
  have hmem : n ∈ loadedTally.named name := h ▸ List.mem_singleton_self n
  obtain ⟨hvalue, hname⟩ := List.mem_filter.1 hmem
  rw [hids n hvalue]
  exact beq_iff_eq.1 hname

/-- What is made of the tally by a new value can be read from its text. -/
theorem read_line_assigned {name : Text} {n : Node Float} (hn : loadedTally.named name = [n])
    (hfactor : n.isFactor = true)
    (htexts : ∀ t ∈ (loadedTally.assign name 5.0).evaluateRoots.2.texts, t.Apart)
    (hnumbers : ∀ x ∈ (loadedTally.assign name 5.0).evaluateRoots.2.numbers, IsTallied x)
    {text : String} {doc : Json Float}
    (h : (loadedTally.assign n.id 5.0).evaluateRoots.2.document (tableWith text).exportDate =
      .ok doc) :
    Json.read (.ofString (doc.toText (some 2) ++ "\n")) = .ok doc := by
  have hsound := Registry.sound_of_violations_eq_nil violations_loadedTally
  have hnode := node?_of_named hsound.stored hn
  rw [id_of_named hn] at hnode h
  have hrecordable := ((recordable_tally.evaluateEach _).assign hnode hfactor 5.0).evaluateEach
    (loadedTally.assign name 5.0).roots
  exact read_line_document hrecordable htexts (fun x hx => (hnumbers x hx).literal) h

theorem exists_named (name : Text) (h : (loadedTally.named name).map Node.isFactor = [true]) :
    ∃ n, loadedTally.named name = [n] ∧ n.isFactor = true := by
  obtain ⟨n, hn, hfactor⟩ := List.map_eq_singleton_iff.1 h
  exact ⟨n, hn, hfactor⟩

/-- The factor of the tally gets a value. The name of the formula is refused. -/
theorem runAssign_saves_tally :
    (∃ text report t',
      (run (.assign "a" 5.0 (some documentPath) none) : StateM FileTable Report).run
        (tableWith text) = (report, t') ∧ report.ending = none ∧
      ∃ bytes, t'.read documentPath = .ok bytes ∧ ∀ s : Registry Float,
        s.loadBytes bytes false = (.ok (), (loadedTally.assign "a" 5.0).evaluateRoots.2)) ∧
    ∃ text report,
      (run (.assign "p" 5.0 (some documentPath) none) : StateM FileTable Report).run
        (tableWith text) = (report, tableWith text) ∧ report.exitCode = 1 := by
  obtain ⟨text, hholds⟩ := exists_holds_loadedTally
  have htexts : ∀ t ∈ (loadedTally.assign "a" 5.0).evaluateRoots.2.texts, t.Apart := by
    decide +kernel
  have hnumbers : ∀ x ∈ (loadedTally.assign "a" 5.0).evaluateRoots.2.numbers, IsTallied x := by
    decide +kernel
  have hformula : (loadedTally.named "p").map Node.isFactor = [false] := by decide +kernel
  have hnone : ¬∃ n, loadedTally.named "p" = [n] ∧ n.isFactor = true := by
    rintro ⟨n, hn, hfactor⟩
    rw [hn, List.map_singleton, hfactor] at hformula
    cases hformula
  obtain ⟨n, hn, hfactor⟩ := exists_named "a" (by decide +kernel)
  constructor
  · obtain ⟨report, t', hrun, -, hsaves⟩ :=
      runAssign_saves (printsAll_tableWith text) hholds violations_loadedTally "a" 5.0 none
        (writable_tableWith text)
        fun n hn hfactor _ h => read_line_assigned hn hfactor htexts hnumbers h
    obtain ⟨hending, -, hloads, -⟩ := hsaves n hn hfactor
    rw [id_of_named hn] at hloads
    exact ⟨text, report, t', hrun, hending, hloads⟩
  · obtain ⟨report, t', hrun, hrefused, -⟩ :=
      runAssign_saves (printsAll_tableWith text) hholds violations_loadedTally "p" 5.0 none
        (writable_tableWith text) fun n hn hfactor _ _ => absurd ⟨n, hn, hfactor⟩ hnone
    obtain ⟨-, hexit, rfl⟩ := hrefused hnone
    exact ⟨text, report, hrun, hexit⟩

/-! ## A line that is refused -/

/-- A factor with a name that opens a tag. -/
def bracketed : Registry Float where
  nodes := ⟨[("a", ⟨"a", "[/a", .factor 1.0, [], [], some 1.0, .null, .null⟩)], by decide⟩
  roots := []

/-- A path that closes a tag. -/
def closingPath : Path := ⟨"", ["t].json"]⟩

/-- What is said when the factor has been saved there. The tag goes from the name to the path, and
nothing is open that it could close. -/
def taggedLine : Text := "[green]✓ [/a = 5; saved to t].json[/green]"

def tagError : MarkupError :=
  ⟨"closing tag '[/a = 5; saved to t]' at position 9 doesn't match any open tag"⟩

/-- The table with a console that finds the tag. -/
def strictTable (text : String) : FileTable :=
  { tableWith text with
    console := fun
      | .line markup => if markup = taggedLine then some tagError else none
      | _ => none }

theorem console_strictTable (text : String) (markup : Text) :
    (strictTable text).console (.line markup) =
      if markup = taggedLine then some tagError else none := rfl

theorem exists_holds_bracketed : ∃ text, (strictTable text).Holds documentPath bracketed := by
  have hloaded := exists_holds_of_tallied (q := bracketed) (by decide +kernel) (by decide +kernel)
    (by decide +kernel)
  rw [Registry.evaluateRoots_of_missing (List.forall_mem_nil _)] at hloaded
  obtain ⟨text, husable, bytes, hread, hload⟩ := hloaded
  exact ⟨text, husable, bytes, hread, hload⟩

/-- The registry is saved, and then the line that says so is refused. -/
theorem ends_runAssign_bracketed {text : String}
    (hholds : (strictTable text).Holds documentPath bracketed) :
    ∃ t' bytes, Ends (runAssign "[/a" 5.0 (some documentPath) (some closingPath))
      (strictTable text) (.error (.crashed (.markup tagError))) t' ∧
      t'.read closingPath = .ok bytes := by
  have htarget : bracketed.Targets "[/a" "a" := ⟨_, _, rfl, rfl, rfl, rfl⟩
  obtain ⟨-, saved, hsaved, -⟩ := exists_fileText
    (recordable_assign_of_targets hholds.recordable htarget 5.0) (strictTable text).exportDate
  obtain ⟨t', hwrite⟩ : ∃ t', (strictTable text).write closingPath saved = .ok t' := ⟨_, rfl⟩
  have hloading : (strictTable text).console
      (.line ("[cyan]Loading tree from:[/cyan] " ++ documentPath.text)) = none := by
    rw [console_strictTable, if_neg (by decide +kernel)]
  have hrefusal : t'.console (.line ("[green]✓ " ++ Text.escapeMarkup "[/a" ++
      s!" = {Places.text 5.0}; " ++ "saved to " ++ closingPath.text ++ "[/green]")) =
      some tagError := by
    rw [FileTable.console_write hwrite, console_strictTable, if_pos (by decide +kernel)]
  refine ⟨t', _, ?_, FileTable.read_write hwrite⟩
  unfold runAssign
  refine (ends_chooseGiven _ _).bind ((ends_loadDocument hholds (ends_print hloading)).bind ?_)
  refine (ends_lookUp (resolve_eq_ok_iff.2 rfl) _).bind ?_
  rw [Registry.update_value rfl rfl]
  have hwarns : Ends ((Registry.failures (bracketed.assign "a" 5.0).evaluateRoots.1).forM fun e =>
      warnRoot (bracketed.assign "a" 5.0).evaluateRoots.2 e.1 e.2) (strictTable text) (.ok ())
      (strictTable text) := ends_pure () _
  exact hwarns.bind ((ends_save hsaved hwrite).bind (ends_print_of_refusal hrefusal))

/-- The command departs from what the roots make of the value, and from what its exit code says. No
evaluation comes to the other factor of the tally, but its computed value is replaced, too: what is
saved is not what the evaluation of the roots makes of the tally with another value for the factor
alone. And where the console refuses the last line, the command fails with a file changed. -/
theorem runAssign_unreached_unprinted :
    (∃ text report t' bytes,
      (tableWith text).Holds documentPath loadedTally ∧ loadedTally.violations = [] ∧
      (∃ n, loadedTally.named "b" = [n] ∧ n.id = "b" ∧ n.isFactor = true) ∧
      (run (.assign "b" 5.0 (some documentPath) none) : StateM FileTable Report).run
        (tableWith text) = (report, t') ∧ report.ending = none ∧
      t'.read documentPath = .ok bytes ∧
      ∀ s : Registry Float, (s.loadBytes bytes false).2 ≠
        (loadedTally.modify "b" fun n => { n with body := .factor 5.0 }).evaluateRoots.2) ∧
    ∃ text report t' bytes,
      (strictTable text).Holds documentPath bracketed ∧ bracketed.violations = [] ∧
      (run (.assign "[/a" 5.0 (some documentPath) (some closingPath)) :
        StateM FileTable Report).run (strictTable text) = (report, t') ∧ report.exitCode = 1 ∧
      (strictTable text).isFile closingPath = false ∧ t'.read closingPath = .ok bytes := by
  constructor
  · obtain ⟨text, hholds⟩ := exists_holds_loadedTally
    have htexts : ∀ t ∈ (loadedTally.assign "b" 5.0).evaluateRoots.2.texts, t.Apart := by
      decide +kernel
    have hnumbers : ∀ x ∈ (loadedTally.assign "b" 5.0).evaluateRoots.2.numbers, IsTallied x := by
      decide +kernel
    obtain ⟨n, hn, hfactor⟩ := exists_named "b" (by decide +kernel)
    obtain ⟨t', bytes, hends, hread, hload⟩ :=
      ends_runAssign_loaded (printsAll_tableWith text) hholds violations_loadedTally hn hfactor 5.0
        none (writable_tableWith text)
        fun _ h => read_line_assigned hn hfactor htexts hnumbers h
    obtain ⟨printed, hrun⟩ := hends.report
    refine ⟨text, _, t', bytes, hholds, violations_loadedTally, ⟨n, hn, id_of_named hn, hfactor⟩,
      hrun, rfl, hread, fun s heq => ?_⟩
    rw [hload, id_of_named hn] at heq
    have hsaved : ((loadedTally.assign "b" 5.0).evaluateRoots.2.node? "b").bind Node.computed =
        some 5.0 := by decide +kernel
    have hkept : ((loadedTally.modify "b" fun n =>
        { n with body := .factor 5.0 }).evaluateRoots.2.node? "b").bind Node.computed =
        some 1.0 := by decide +kernel
    rw [heq, hkept] at hsaved
    exact absurd hsaved (by decide +kernel)
  · obtain ⟨text, hholds⟩ := exists_holds_bracketed
    obtain ⟨t', bytes, hends, hread⟩ := ends_runAssign_bracketed hholds
    obtain ⟨printed, hrun⟩ := hends.report
    exact ⟨text, _, t', bytes, hholds, by decide +kernel, hrun, rfl, rfl, hread⟩

end Command

end FormulaGraph
