import FormulaGraph.Proofs.Command.Assign
/-!
# Names and ids

A command finds a node by its name, and then changes what is stored under the id of that node. A
document may store nodes under other keys than their ids. Then the id leads to one node and the name
to another, and it is the first that gets the value.

* `run_assign_gives`: what has changed in the saved document after a command that succeeded, and
  when that is what the name says.
* `run_assign_crossed`: two factors that are stored under the ids of each other.
-/
namespace FormulaGraph

namespace Registry

variable {r s : Registry Float} {name : Text} {n : Node Float} {value : Float}

/-! ## The key of a name -/

/-- A name that is found once stands under one key. -/
theorem exists_key_of_named (hnamed : r.named name = [n]) :
    ∃ key, r.node? key = some n ∧ n.name = name ∧
      ∀ k m, r.node? k = some m → m.name = name → k = key ∧ m = n := by
  unfold named list OrderedMap.values at hnamed
  rw [List.filter_map] at hnamed
  obtain ⟨e, he, rfl⟩ := List.map_eq_singleton_iff.1 hnamed
  have hentry : ∀ k m, r.node? k = some m ∧ m.name = name ↔ (k, m) = e := by
    intro k m
    have hmem : (k, m) ∈ [e] ↔ (k, m) = e := List.mem_singleton
    rw [← hmem, ← he, List.mem_filter, node?, OrderedMap.get?_eq_some_iff]
    simp
  obtain ⟨hnode, hname⟩ := (hentry e.1 e.2).2 rfl
  refine ⟨e.1, hnode, hname, fun k m hm hname => ?_⟩
  obtain rfl := (hentry k m).1 ⟨hm, hname⟩
  exact ⟨rfl, rfl⟩

/-! ## What a value changes -/

/-- In the second registry the node of the name has the value, and all others have what they had. -/
def Gives (r s : Registry Float) (name : Text) (value : Float) : Prop :=
  ∀ k m m', r.node? k = some m → s.node? k = some m' →
    m'.body = if m.name = name then .factor value else m.body

theorem body_evaluateRoots_assign {id k : Text} {m m' : Node Float} (hm : r.node? k = some m)
    (hm' : (r.assign id value).evaluateRoots.2.node? k = some m') :
    m'.body = if k = id then .factor value else m.body := by
  obtain ⟨-, -, hnodes⟩ := evaluateRoots_assign r id value
  obtain ⟨m'', hm'', hunevaluated⟩ := hnodes k m hm
  obtain rfl := Option.some.inj (hm'.symm.trans hm'')
  have hbody := congrArg Node.body hunevaluated
  split at hbody <;> simp_all [Node.unevaluated]

/-- The value goes to the node of the name if that is stored under its id, or if nothing changes. -/
theorem gives_assign_iff (hnamed : r.named name = [n]) {m : Node Float}
    (hm : r.node? n.id = some m) :
    Gives r (r.assign n.id value).evaluateRoots.2 name value ↔
      m = n ∨ n.body = .factor value ∧ m.body = .factor value := by
  obtain ⟨key, hkey, hname, hunique⟩ := exists_key_of_named hnamed
  obtain ⟨-, -, hnodes⟩ := evaluateRoots_assign r n.id value
  constructor
  · -- a node under another key keeps its body, and the one under the id gets the value
    intro hgives
    by_cases hmn : m = n
    · exact .inl hmn
    · have hne : m.name ≠ name := fun h => hmn (hunique _ m hm h).2
      have hkne : key ≠ n.id := by
        rintro rfl
        exact hmn (Option.some.inj (hm.symm.trans hkey))
      obtain ⟨n', hn', -⟩ := hnodes key n hkey
      obtain ⟨m', hm', -⟩ := hnodes n.id m hm
      have hn := (body_evaluateRoots_assign hkey hn').symm.trans (hgives key n n' hkey hn')
      have hm := (body_evaluateRoots_assign hm hm').symm.trans (hgives n.id m m' hm hm')
      rw [if_neg hkne, if_pos hname] at hn
      rw [if_pos rfl, if_neg hne] at hm
      exact .inr ⟨hn, hm.symm⟩
  · intro h k x x' hx hx'
    rw [body_evaluateRoots_assign hx hx']
    by_cases hk : k = n.id
    · subst hk
      obtain rfl := Option.some.inj (hm.symm.trans hx)
      rcases h with rfl | ⟨-, hbody⟩
      · rw [if_pos rfl, if_pos hname]
      · rw [if_pos rfl, hbody, ite_self]
    · rw [if_neg hk]
      split
      · rename_i hxname
        obtain ⟨rfl, rfl⟩ := hunique k x hx hxname
        rcases h with rfl | ⟨hbody, -⟩
        · exact absurd (hunique _ _ hm hname).1.symm hk
        · exact hbody
      · rfl

end Registry

namespace Command

open Work

variable {t t' : FileTable} {path : Path} {r : Registry Float} {name : Text} {n : Node Float}

/-! ## The command -/

/-- The command succeeds on a factor if all roots exist and the file can be written. -/
theorem exists_run_assign (hconsole : t.PrintsAll) (ht : t.Holds path r) {id : Text}
    (htarget : r.Targets name id)
    (hroots : ∀ root ∈ r.roots, r.nodes.contains root = true) (value : Float)
    (output : Option Path) (hwritable : t.Writable (output.getD path)) :
    ∃ report t', (run (.assign name value (some path) output) : StateM FileTable Report).run t =
      (report, t') ∧ report.exitCode = 0 := by
  obtain ⟨t', -, hends, -⟩ :=
    ends_runAssign_saved hconsole (ends_chooseGiven path t) ht htarget hroots value hwritable
  obtain ⟨printed, hrun⟩ := hends.report
  exact ⟨_, t', hrun, rfl⟩

/-- A command that succeeded has saved the registry with the value in its place. -/
theorem exists_saved (ht : t.Holds path r) {value : Float} {output : Option Path} {report : Report}
    (hrun : (run (.assign name value (some path) output) : StateM FileTable Report).run t =
      (report, t')) (hexit : report.exitCode = 0) :
    ∃ id doc, r.Targets name id ∧
      t'.read (output.getD path) = .ok (doc.toText (some 2) ++ "\n").toUTF8 ∧
      Document.read doc = .ok (r.assign id value).evaluateRoots.2 := by
  have hends := endsIn_runAssign (ends_chooseGiven path t) ht name value output
  cases hends.of_exitCode hrun hexit with
  | saved h _ htext hwrite =>
    obtain ⟨doc, text, htext', rfl, -, hread⟩ :=
      exists_fileText (recordable_assign_of_targets ht.recordable h value) t.exportDate
    obtain rfl := Except.ok.inj (htext.symm.trans htext')
    exact ⟨_, doc, h, FileTable.read_write hwrite, hread⟩

/-- **What a value given by name changes.** A successful command has saved a document with the same
nodes, and the node of the name has the value there and all others have what they had, if the node
is stored under its own id. Otherwise this only holds if both nodes had the value already. -/
theorem run_assign_gives (ht : t.Holds path r) (hnamed : r.named name = [n]) {value : Float}
    {output : Option Path} {report : Report}
    (hrun : (run (.assign name value (some path) output) : StateM FileTable Report).run t =
      (report, t')) (hexit : report.exitCode = 0) :
    ∃ doc saved, t'.read (output.getD path) = .ok (doc.toText (some 2) ++ "\n").toUTF8 ∧
      Document.read doc = .ok saved ∧ saved.nodes.keys = r.nodes.keys ∧
      ∃ m, r.node? n.id = some m ∧ m.isFactor = true ∧
        (Registry.Gives r saved name value ↔
          m = n ∨ n.body = .factor value ∧ m.body = .factor value) := by
  obtain ⟨id, doc, ⟨n', m, hn', rfl, hm, hfactor⟩, hwritten, hread⟩ := exists_saved ht hrun hexit
  obtain rfl : n = n' := List.singleton_inj.1 (hnamed.symm.trans hn')
  obtain ⟨-, hkeys, -⟩ := Registry.evaluateRoots_assign r n.id value
  exact ⟨doc, _, hwritten, hread, hkeys, m, hm, hfactor, Registry.gives_assign_iff hnamed hm⟩

/-- The factor of the tally is stored under its id. -/
theorem run_assign_gives_tally : ∃ text report t' doc saved,
    (run (.assign "a" 5.0 (some documentPath) none) : StateM FileTable Report).run
      (tableWith text) = (report, t') ∧ report.exitCode = 0 ∧
    t'.read documentPath = .ok (doc.toText (some 2) ++ "\n").toUTF8 ∧
    Document.read doc = .ok saved ∧ Registry.Gives loadedTally saved "a" 5.0 := by
  obtain ⟨text, hholds⟩ := exists_holds_loadedTally
  have hstored := (Registry.sound_of_violations_eq_nil violations_loadedTally).stored
  have hroots : ∀ root ∈ loadedTally.roots, loadedTally.nodes.contains root = true := by
    decide +kernel
  obtain ⟨n, hn, hfactor⟩ := exists_named "a" (by decide +kernel)
  have hnode := node?_of_named hstored hn
  obtain ⟨report, t', hrun, hexit⟩ := exists_run_assign (printsAll_tableWith text) hholds
    ⟨n, n, hn, rfl, hnode, hfactor⟩ hroots 5.0 none (writable_tableWith text)
  obtain ⟨doc, saved, hwritten, hread, -, m, hm, -, hgives⟩ :=
    run_assign_gives hholds hn hrun hexit
  obtain rfl := Option.some.inj (hnode.symm.trans hm)
  exact ⟨text, report, t', doc, saved, hrun, hexit, hwritten, hread, hgives.2 (.inl rfl)⟩

/-! ## Crossed keys -/

/-- Two factors, each stored under the id of the other. -/
def crossedKeys : Registry Float where
  nodes := ⟨
    [("a", ⟨"b", "price", .factor 1.0, [], [], some 1.0, .null, .null⟩),
     ("b", ⟨"a", "cost", .factor 2.0, [], [], some 2.0, .null, .null⟩)], by decide⟩
  roots := []

theorem exists_holds_crossedKeys :
    ∃ text, (tableWith text).Holds documentPath crossedKeys := by
  have hloaded := exists_holds_of_tallied (q := crossedKeys) (by decide +kernel)
    (by decide +kernel) (by decide +kernel)
  rwa [Registry.evaluateRoots_of_missing (List.forall_mem_nil _)] at hloaded

/-- The price gets a value, and the command succeeds, but it is the cost that is changed. -/
theorem run_assign_crossed : ∃ text report t' doc saved,
    (tableWith text).Holds documentPath crossedKeys ∧
    (∃ n, crossedKeys.named "price" = [n] ∧ n.isFactor = true) ∧
    (run (.assign "price" 5.0 (some documentPath) none) : StateM FileTable Report).run
      (tableWith text) = (report, t') ∧ report.exitCode = 0 ∧
    t'.read documentPath = .ok (doc.toText (some 2) ++ "\n").toUTF8 ∧
    Document.read doc = .ok saved ∧
    (saved.named "price").map Node.body = [.factor 1.0] ∧
    (saved.named "cost").map Node.body = [.factor 5.0] := by
  obtain ⟨text, hholds⟩ := exists_holds_crossedKeys
  have htarget : crossedKeys.Targets "price" "b" := ⟨_, _, rfl, rfl, rfl, rfl⟩
  obtain ⟨report, t', hrun, hexit⟩ := exists_run_assign (printsAll_tableWith text) hholds htarget
    (by simp [crossedKeys]) 5.0 none (writable_tableWith text)
  obtain ⟨id, doc, hsaved, hwritten, hread⟩ := exists_saved hholds hrun hexit
  obtain rfl := hsaved.unique htarget
  rw [Registry.evaluateRoots_of_missing (List.forall_mem_nil _)] at hread
  exact ⟨text, report, t', doc, _, hholds, ⟨_, rfl, rfl⟩, hrun, hexit, hwritten, hread, rfl, rfl⟩

end Command

end FormulaGraph
