import FormulaGraph.Proofs.Command.Work
import FormulaGraph.Proofs.Document.Loaded
import FormulaGraph.Proofs.Files.Table
/-!
# Steps that commands share

A command looks for its configuration, chooses a document, loads it, looks names up in it, and may
save a registry. None of these steps but the last changes a file.

* `ends_configuration`, `ends_chooseDocument`, `prints_loadDocument`, `ends_lookUp`, `ends_save`:
  how a step ends when it comes to something.
* `exists_fileText`: a loaded registry can always be saved, and what the file says of it.
* `tableWith`: one document in the current directory.
-/
namespace FormulaGraph

open Work

/-- The path leads to a file that is loaded as the registry. -/
structure FileTable.Holds (t : FileTable) (path : Path) (r : Registry Float) : Prop where
  usable : path.isUsable = true
  loads : ∃ bytes, t.read path = .ok bytes ∧
    (Registry.empty : Registry Float).loadBytes bytes false = (.ok (), r)

/-- Every text can be written at the path. -/
def FileTable.Writable (t : FileTable) (path : Path) : Prop :=
  ∀ text, ∃ t', t.write path text = .ok t'

theorem FileTable.Writable.write_ne_error {t : FileTable} {path : Path} (h : t.Writable path)
    (text : String) (e : FileError) : t.write path text ≠ .error e := by
  obtain ⟨t', hwrite⟩ := h text
  rw [hwrite]
  exact fun he => nomatch he

theorem FileTable.Holds.recordable {t : FileTable} {path : Path} {r : Registry Float}
    (h : t.Holds path r) : r.Recordable := by
  obtain ⟨bytes, -, hload⟩ := h.loads
  exact Registry.recordable_of_loadBytes hload

/-! ## The configuration -/

namespace FileTable

/-- What a command finds as its configuration. -/
def configuration (t : FileTable) : Except ConfigFailure (Config Float) :=
  ((Config.current : StateM FileTable (Except ConfigFailure (Config Float))).run t).1

theorem run_firstFile (t : FileTable) (paths : List Path) :
    (Config.firstFile paths : StateM FileTable (Option Path)).run t =
      (paths.find? t.isFile, t) := by
  induction paths with
  | nil => rfl
  | cons p rest ih =>
    rw [Config.firstFile, StateT.run_bind, List.find?_cons]
    have hfile : (Surroundings.isFile p : StateM FileTable Bool).run t = (t.isFile p, t) := rfl
    rw [hfile]
    cases t.isFile p with
    | true => rfl
    | false => exact ih

/-- To look for the configuration changes nothing. -/
theorem run_current (t : FileTable) :
    (Config.current : StateM FileTable (Except ConfigFailure (Config Float))).run t =
      (t.configuration, t) := by
  have hfind : (Config.find : StateM FileTable (Option Path)).run t =
      (((⟨"/", t.current⟩ : Path).upwards.map (·.child "pyproject.toml")).find? t.isFile, t) :=
    run_firstFile t _
  refine Prod.ext rfl ?_
  rw [Config.current, StateT.run_bind, hfind]
  cases ((⟨"/", t.current⟩ : Path).upwards.map (·.child "pyproject.toml")).find? t.isFile with
  | none => rfl
  | some p =>
    change ((Config.load p : StateM FileTable (Except ConfigFailure (Config Float))).run t).2 = t
    have hread : (Surroundings.read p : StateM FileTable (Except FileError ByteArray)).run t =
        (t.read p, t) := rfl
    rw [Config.load, StateT.run_bind, hread]
    cases t.read p <;> rfl

end FileTable

namespace Command

variable {t t' : FileTable} {path : Path} {r : Registry Float} {name : Text} {n : Node Float}

/-! ## Steps -/

theorem ends_configuration {config : Config Float} (h : t.configuration = .ok config) :
    Ends configuration t (.ok config) t := by
  unfold configuration
  refine (ends_perform (FileTable.run_current t)).bind ?_
  rw [h]
  exact ends_pure config t

theorem ends_chooseGiven (path : Path) (t : FileTable) :
    Ends (chooseDocument (some path)) t (.ok path) t := ends_pure path t

/-- The given document is chosen, or else the configured one. -/
theorem ends_chooseDocument {config : Config Float} (h : t.configuration = .ok config)
    {document : Option Path} (hpath : document.or config.document = some path) :
    Ends (chooseDocument document) t (.ok path) t := by
  cases document with
  | some given =>
    obtain rfl : given = path := Option.some.inj hpath
    exact ends_chooseGiven given t
  | none =>
    have hconfigured : config.document = some path := hpath
    unfold chooseDocument
    refine (ends_configuration h).bind ?_
    rw [hconfigured]
    exact ends_pure path t

theorem ends_loadDocument (h : t.Holds path r)
    (hsaid : Ends (say ("[cyan]Loading tree from:[/cyan] " ++ path.text)) t (.ok ()) t) :
    Ends (loadDocument path) t (.ok r) t := by
  obtain ⟨husable, bytes, hread, hload⟩ := h
  unfold loadDocument
  refine hsaid.bind ?_
  extract_lets rest
  rw [husable, if_neg (by decide)]
  refine (ends_read t path).bind ?_
  simp only [hread, hload]
  exact ends_pure r t

theorem prints_loadDocument (h : t.Holds path r) : Prints (loadDocument path) t (.ok r) t := by
  rcases prints_say ("[cyan]Loading tree from:[/cyan] " ++ path.text) t with
    hsaid | ⟨hrefuses, why, hsaid⟩
  · exact .inl (ends_loadDocument h hsaid)
  · exact .inr ⟨hrefuses, why, hsaid.stop⟩

theorem ends_lookUp (h : r.resolve name = .ok n) (t : FileTable) :
    Ends (lookUp r name) t (.ok n) t := by
  unfold lookUp
  rw [h]
  exact ends_pure n t

theorem prints_lookUp_of_error {e : Registry.LookupError} (h : r.resolve name = .error e)
    (t : FileTable) : Prints (lookUp r name) t (.error .failed) t := by
  unfold lookUp
  rw [h]
  exact prints_failWith _ t

theorem ends_writeFile {text : String} (hwrite : t.write path text = .ok t') :
    Ends (writeFile path text) t (.ok ()) t' := (ends_write hwrite).bind (ends_pure () t')

theorem ends_writeFile_of_error {text : String} {e : FileError}
    (hwrite : t.write path text = .error e) :
    Ends (writeFile path text) t (.error (.crashed (.file e))) t :=
  (ends_write_of_error hwrite).bind (ends_crash _ t)

theorem ends_save {text : String} (htext : r.fileText t.exportDate = .ok text)
    (hwrite : t.write path text = .ok t') : Ends (save r path) t (.ok ()) t' := by
  unfold save
  refine (ends_exportDate t).bind ?_
  rw [htext]
  exact ends_writeFile hwrite

theorem ends_save_of_error {text : String} {e : FileError}
    (htext : r.fileText t.exportDate = .ok text) (hwrite : t.write path text = .error e) :
    Ends (save r path) t (.error (.crashed (.file e))) t := by
  unfold save
  refine (ends_exportDate t).bind ?_
  rw [htext]
  exact ends_writeFile_of_error hwrite

/-- A registry whose nodes have records can be saved, and what is saved is its document. -/
theorem exists_fileText (hr : r.Recordable) (exportDate : Text) :
    ∃ doc text, r.fileText exportDate = .ok text ∧ text = doc.toText (some 2) ++ "\n" ∧
      r.document exportDate = .ok doc ∧ Document.read doc = .ok r := by
  have hdoc := Registry.document_eq_ok hr exportDate
  exact ⟨_, _, by rw [Registry.fileText, Registry.documentText, hdoc]; rfl, rfl, hdoc,
    Registry.read_document hr hdoc⟩

/-! ## The node of a name -/

theorem resolve_eq_ok_iff : r.resolve name = .ok n ↔ r.named name = [n] := by
  unfold Registry.resolve
  constructor
  · intro h
    split at h
    · rename_i m hm
      cases h
      exact hm
    · cases h
  · intro h
    rw [h]

theorem node?_of_named (hr : Registry.Stored r) (h : r.named name = [n]) :
    r.node? n.id = some n := by
  have hmem : n ∈ r.named name := h ▸ List.mem_singleton_self n
  obtain ⟨⟨key, m⟩, he, rfl⟩ := List.mem_map.1 (List.mem_of_mem_filter hmem)
  have hnode : r.node? key = some m := OrderedMap.get?_eq_some_iff.2 he
  rwa [← (hr key m hnode).id_eq] at hnode

/-! ## A document in the current directory -/

/-- The current directory with one file in it. -/
def tableWith (text : String) : FileTable where
  files := .ofList [(["t.json"], text)]
  directories := [[]]
  current := []
  exportDate := "2024-01-01T00:00:00+00:00"
  ids _ := ""

def documentPath : Path := ⟨"", ["t.json"]⟩

theorem writable_tableWith (text : String) : (tableWith text).Writable documentPath :=
  fun _ => ⟨_, rfl⟩

theorem printsAll_tableWith (text : String) : (tableWith text).PrintsAll := fun _ => rfl

theorem read_tableWith (text : String) : (tableWith text).read documentPath = .ok text.toUTF8 := rfl

section

variable {q : Registry Float} (hq : q.Recordable) (htexts : ∀ t ∈ q.texts, t.Apart)
  (hnumbers : ∀ x ∈ q.numbers, Json.Literal (.real x))

include hq htexts hnumbers

theorem read_line_document {text : String} {doc : Json Float}
    (h : q.document (tableWith text).exportDate = .ok doc) :
    Json.read (.ofString (doc.toText (some 2) ++ "\n")) = .ok doc :=
  Json.read_line (Registry.faithful_document hq htexts hnumbers (Text.apart_ofString _) h) _

theorem exists_holds_tableWith : ∃ text, (tableWith text).Holds documentPath q.evaluateRoots.2 := by
  obtain ⟨text, -, hload⟩ := Registry.loadBytes_fileText hq (tableWith "").exportDate
    fun doc hdoc => read_line_document hq htexts hnumbers hdoc
  exact ⟨text, by decide, text.toUTF8, read_tableWith text, hload _⟩

end

end Command

end FormulaGraph
