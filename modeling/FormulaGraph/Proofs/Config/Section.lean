import FormulaGraph.Proofs.Config.Settings
/-!
# The section of a configuration

The section `tool.formtree` of a file is a table, or an empty one where the file has none. Then a
value of a wrong kind in it is an error of the configuration, but for a solver tolerance that is too
large. Where the section or the table around it is something else, looking for its entries fails in
ways that belong to what it is, or finds none: nothing looks like no section at all.

* `section?`: the section, where it is a table.
* `ReadFrom`: what the configuration of a section should be.
* `ofTable_typed_iff`: where a file gives the configuration of its section or an error.
-/
namespace FormulaGraph.Config

open Toml (Given)

variable {root : Path} {entries : Toml.Table Float} {t : Toml.Table Float}

/-- The section of a file, empty if it has none. -/
def section? (t : Toml.Table Float) : Option (Toml.Table Float) :=
  match (Toml.Value.field? "tool" t).getD (.table []) with
  | .table tool =>
    match (Toml.Value.field? "formtree" tool).getD (.table []) with
    | .table entries => some entries
    | _ => none
  | _ => none

/-- The document path that a value stands for. -/
def IsDocument (root : Path) (v : Toml.Value Float) (document : Option Path) : Prop :=
  ∃ s, v = .text s ∧ document = some (root.join (.ofText s))

/-- The solver settings that a value stands for. -/
def IsSolver (v : Toml.Value Float) (s : SolverSettings Float) : Prop :=
  ∃ settings, v = .table settings ∧ (∀ e ∈ settings, SolverSettings.Accepted e) ∧
    SolverSettings.ofValue v = .ok s

/-- The configuration of a section: what it gives, in values of the right kind, and the standard for
the rest. -/
structure ReadFrom (root : Path) (entries : Toml.Table Float) (c : Config Float) : Prop where
  document : Given "document" (IsDocument root) entries none c.document
  solver : Given "solver" IsSolver entries .standard c.solver
  projectRoot : c.projectRoot = some root

/-- The solver table is reached and has a tolerance that is too large. -/
def Overflows (entries : Toml.Table Float) : Prop :=
  (∀ v, Toml.Value.field? "document" entries = some v → ∃ s, v = .text s) ∧
    ∃ settings, Toml.Value.field? "solver" entries = some (.table settings) ∧
      SolverSettings.Overflows settings

/-! ## The entries of a section -/

/-- The document path of a section, as it is looked up. -/
def documentOf (root : Path) (entries : Toml.Table Float) : Except ConfigFailure (Option Path) :=
  match Toml.Value.field? "document" entries with
  | none => .ok none
  | some v => some <$> toDocument root v

/-- The solver settings of a section, as they are looked up. -/
def solverOf (entries : Toml.Table Float) : Except ConfigFailure (SolverSettings Float) :=
  match Toml.Value.field? "solver" entries with
  | none => .ok .standard
  | some v => SolverSettings.ofValue v

/-- A section is its document and then its solver. -/
theorem ofSection_table (root : Path) (entries : Toml.Table Float) :
    ofSection root (.table entries) = (do
      let document ← documentOf root entries
      let solver ← solverOf entries
      pure ⟨document, solver, some root⟩) := by
  cases entries with
  | nil => rfl
  | cons e rest =>
    have hgiven : (!(Toml.Value.table (e :: rest)).isGiven) = false := rfl
    rw [ofSection, hgiven, if_neg Bool.false_ne_true, documentOf, solverOf]
    simp only [named?, shaped]
    cases Toml.Value.field? "document" (e :: rest) <;>
      cases Toml.Value.field? "solver" (e :: rest) <;> rfl

theorem documentOf_eq_ok_iff {document : Option Path} :
    documentOf root entries = .ok document ↔
      Given "document" (IsDocument root) entries none document := by
  rw [documentOf, Given]
  cases Toml.Value.field? "document" entries with
  | none => rw [Except.ok.injEq, eq_comm]
  | some v =>
    constructor
    · intro h
      cases v with
      | text s => exact ⟨s, rfl, (Except.ok.inj h).symm⟩
      | _ => cases h
    · rintro ⟨s, rfl, rfl⟩
      rfl

theorem documentOf_eq_error {f : ConfigFailure} (h : documentOf root entries = .error f) :
    ∃ e, f = .invalid e := by
  rw [documentOf] at h
  split at h
  · cases h
  · rename_i v hv
    cases v with
    | text s => cases h
    | _ =>
      cases h
      exact ⟨_, rfl⟩

theorem exists_documentOf (root : Path)
    (h : ∀ v, Toml.Value.field? "document" entries = some v → ∃ s, v = .text s) :
    ∃ document, documentOf root entries = .ok document := by
  rw [documentOf]
  split
  · exact ⟨none, rfl⟩
  · rename_i v hv
    obtain ⟨s, rfl⟩ := h v hv
    exact ⟨_, rfl⟩

theorem isSolver_iff {v : Toml.Value Float} {s : SolverSettings Float} :
    IsSolver v s ↔ SolverSettings.ofValue v = .ok s := by
  constructor
  · rintro ⟨settings, -, -, h⟩
    exact h
  · intro h
    obtain ⟨settings, rfl⟩ := SolverSettings.exists_table_of_ofValue h
    exact ⟨settings, rfl, SolverSettings.exists_ofValue_iff.1 ⟨s, h⟩, h⟩

theorem solverOf_eq_ok_iff {s : SolverSettings Float} :
    solverOf entries = .ok s ↔ Given "solver" IsSolver entries .standard s := by
  rw [solverOf, Given]
  cases Toml.Value.field? "solver" entries with
  | none => rw [Except.ok.injEq, eq_comm]
  | some v => exact isSolver_iff.symm

theorem solverOf_eq_error {f : ConfigFailure} (h : solverOf entries = .error f) :
    (∃ e, f = .invalid e) ∨ ∃ settings,
      Toml.Value.field? "solver" entries = some (.table settings) ∧
        SolverSettings.Overflows settings := by
  rw [solverOf] at h
  split at h
  · cases h
  · rename_i v hv
    rcases SolverSettings.ofValue_eq_error h with hinvalid | ⟨settings, rfl, hlarge⟩
    · exact .inl hinvalid
    · exact .inr ⟨settings, hv, hlarge⟩

theorem solverOf_of_overflows {settings : Toml.Table Float}
    (hsolver : Toml.Value.field? "solver" entries = some (.table settings))
    (h : SolverSettings.Overflows settings) :
    solverOf entries = .error (.misshapen .numberTooLarge) := by
  rw [solverOf, hsolver]
  exact SolverSettings.ofValue_of_overflows h

/-! ## Sections -/

theorem ofSection_eq_ok_iff {c : Config Float} :
    ofSection root (.table entries) = .ok c ↔ ReadFrom root entries c := by
  rw [ofSection_table]
  constructor
  · intro h
    obtain ⟨document, hdocument, h⟩ := ok_of_bind h
    obtain ⟨solver, hsolver, h⟩ := ok_of_bind h
    obtain rfl := Except.ok.inj h
    exact ⟨documentOf_eq_ok_iff.1 hdocument, solverOf_eq_ok_iff.1 hsolver, rfl⟩
  · rintro ⟨hdocument, hsolver, hroot⟩
    rw [documentOf_eq_ok_iff.2 hdocument, solverOf_eq_ok_iff.2 hsolver, ← hroot]
    rfl

theorem ofSection_of_overflows (h : Overflows entries) :
    ofSection root (.table entries) = .error (.misshapen .numberTooLarge) := by
  obtain ⟨hdocument, settings, hsolver, hlarge⟩ := h
  obtain ⟨document, hdocument⟩ := exists_documentOf root hdocument
  rw [ofSection_table, hdocument, solverOf_of_overflows hsolver hlarge]
  rfl

theorem ofSection_eq_error {f : ConfigFailure} (h : ofSection root (.table entries) = .error f) :
    (∃ e, f = .invalid e) ∨ Overflows entries := by
  rw [ofSection_table] at h
  rcases error_of_bind h with h | ⟨document, hdocument, h⟩
  · exact .inl (documentOf_eq_error h)
  · rcases error_of_bind h with h | ⟨solver, -, h⟩
    · rcases solverOf_eq_error h with hinvalid | ⟨settings, hsolver, hlarge⟩
      · exact .inl hinvalid
      · refine .inr ⟨fun v hv => ?_, settings, hsolver, hlarge⟩
        have hgiven := documentOf_eq_ok_iff.1 hdocument
        rw [Given, hv] at hgiven
        obtain ⟨s, hs, -⟩ := hgiven
        exact ⟨s, hs⟩
    · cases h

theorem named?_of_not_table (name : Text) {v : Toml.Value Float} (h : ∀ t, v ≠ .table t) :
    (∃ e, named? name v = .error e) ∨ named? name v = .ok none := by
  cases v with
  | table t => exact absurd rfl (h t)
  | text t =>
    rw [named?]
    split
    · exact .inl ⟨_, rfl⟩
    · exact .inr rfl
  | array items =>
    simp only [named?]
    split
    · exact .inl ⟨_, rfl⟩
    · exact .inr rfl
  | _ => exact .inl ⟨_, rfl⟩

/-- What is no table is refused for its shape, or taken for no section. -/
theorem ofSection_of_not_table {v : Toml.Value Float} (h : ∀ t, v ≠ .table t) :
    (∃ e, ofSection root v = .error (.misshapen e)) ∨
      ofSection root v = .ok (standard (some root)) := by
  rw [ofSection]
  split
  · exact .inr rfl
  · rcases named?_of_not_table "document" h with ⟨e, he⟩ | hdocument
    · rw [he]
      exact .inl ⟨e, rfl⟩
    · rcases named?_of_not_table "solver" h with ⟨e, he⟩ | hsolver
      · rw [hdocument, he]
        exact .inl ⟨e, rfl⟩
      · rw [hdocument, hsolver]
        exact .inr rfl

/-! ## Files -/

theorem ofTable_of_section? (h : section? t = some entries) :
    ofTable root t = ofSection root (.table entries) := by
  rw [section?] at h
  rw [ofTable]
  split at h
  · split at h
    · rename_i htool _ _ hformtree
      obtain rfl := Option.some.inj h
      rw [htool]
      dsimp only
      rw [hformtree]
    · cases h
  · cases h

theorem ofTable_of_no_section (root : Path) (h : section? t = none) :
    (∃ e, ofTable root t = .error (.misshapen e)) ∨
      ofTable root t = .ok (standard (some root)) := by
  rw [section?] at h
  rw [ofTable]
  split at h
  · rename_i htool
    rw [htool]
    split at h
    · cases h
    · rename_i hnot
      exact ofSection_of_not_table fun entries heq => hnot entries heq
  · rename_i hnot
    split
    · rename_i tool htool
      exact absurd htool (hnot tool)
    · exact .inl ⟨_, rfl⟩

theorem ofTable_typed_iff :
    ((∃ e, ofTable root t = .error (.invalid e)) ∨
        ∃ entries c, section? t = some entries ∧ ofTable root t = .ok c ∧ ReadFrom root entries c) ↔
      ∃ entries, section? t = some entries ∧ ¬Overflows entries := by
  cases hsection : section? t with
  | none =>
    refine iff_of_false ?_ nofun
    rintro (⟨e, he⟩ | ⟨entries, c, hsome, -⟩)
    · rcases ofTable_of_no_section root hsection with ⟨e', h⟩ | h
      · cases h.symm.trans he
      · cases h.symm.trans he
    · cases hsome
  | some entries =>
    rw [ofTable_of_section? hsection]
    constructor
    · intro h
      refine ⟨entries, rfl, fun hlarge => ?_⟩
      rw [ofSection_of_overflows hlarge] at h
      rcases h with ⟨e, he⟩ | ⟨-, c, -, hc, -⟩
      · cases he
      · cases hc
    · rintro ⟨_, ⟨⟩, hgood⟩
      cases h : ofSection root (.table entries) with
      | error f =>
        obtain ⟨e, rfl⟩ := (ofSection_eq_error h).resolve_right hgood
        exact .inl ⟨e, rfl⟩
      | ok c => exact .inr ⟨entries, c, rfl, rfl, ofSection_eq_ok_iff.1 h⟩

/-- The configuration of a file, from what was read of it. -/
def ofReading (path : Path) (text : List Char)
    (reading : Except Toml.ReadError (Toml.Table Float)) : Except ConfigFailure (Config Float) :=
  match reading with
  | .error (.fault f offset) => .error (.invalid (.unreadable path f text offset))
  | .error (.numberTooLong digits) => .error (.numberTooLong digits)
  | .ok t => ofTable path.parent t

theorem ofBytes_eq_ofReading (path : Path) {bytes : ByteArray} {s : String}
    (h : String.fromUTF8? bytes = some s) :
    ofBytes path bytes =
      ofReading path (Toml.Reader.plainLines s.toList)
        (Toml.read (Toml.Reader.plainLines s.toList)) := by
  rw [ofBytes, h]
  dsimp only
  rcases Toml.read (Toml.Reader.plainLines s.toList) with (⟨f, offset⟩ | digits) | t <;> rfl

/-- **A file gives the configuration of its section or an error of the configuration**, except where
the section or the table around it is no table, and where a solver tolerance is too large for a
double. -/
theorem ofReading_typed_iff (path : Path) (text : List Char)
    {reading : Except Toml.ReadError (Toml.Table Float)}
    (hreading : ∀ digits, reading ≠ .error (.numberTooLong digits)) :
    (((∃ e, ofReading path text reading = .error (.invalid e)) ∨
        ∃ t, reading = .ok t ∧ ∃ entries c, section? t = some entries ∧
          ofReading path text reading = .ok c ∧ ReadFrom path.parent entries c) ↔
      ∀ t, reading = .ok t → ∃ entries, section? t = some entries ∧ ¬Overflows entries) ∧
    (∀ t, reading = .ok t → section? t = none →
      (∃ e, ofReading path text reading = .error (.misshapen e)) ∨
        ofReading path text reading = .ok (standard (some path.parent))) ∧
    (∀ t entries, reading = .ok t → section? t = some entries → Overflows entries →
      ofReading path text reading = .error (.misshapen .numberTooLarge)) ∧
    ∀ bytes s, String.fromUTF8? bytes = some s →
      ofBytes path bytes =
        ofReading path (Toml.Reader.plainLines s.toList)
          (Toml.read (Toml.Reader.plainLines s.toList)) := by
  refine ⟨?_, ?_, ?_, fun bytes s => ofBytes_eq_ofReading path⟩
  · rcases reading with (⟨f, offset⟩ | digits) | t
    · exact iff_of_true (.inl ⟨_, rfl⟩) nofun
    · exact absurd rfl (hreading digits)
    · simp only [ofReading, Except.ok.injEq, forall_eq', exists_eq_left']
      exact ofTable_typed_iff
  · rintro t rfl
    exact ofTable_of_no_section path.parent
  · rintro t entries rfl hsection hlarge
    rw [ofReading, ofTable_of_section? hsection]
    exact ofSection_of_overflows hlarge

/-- A solver table with a seed. -/
def seeded : Toml.Table Float := [("seed", .int 7)]

/-- A section with both of its entries, and one that is unknown. -/
def full : Toml.Table Float :=
  [("document", .text "t.json"), ("solver", .table seeded), ("other", .bool true)]

/-- A file with a section. -/
def nested (v : Toml.Value Float) : Toml.Table Float := [("tool", .table [("formtree", v)])]

theorem ofReading_typed_full :
    (∀ digits, (.ok (nested (.table full)) : Except Toml.ReadError (Toml.Table Float)) ≠
      .error (.numberTooLong digits)) ∧
    ∃ c, ofReading (.ofText "pyproject.toml") [] (.ok (nested (.table full))) = .ok c ∧
      ReadFrom (.ofText ".") full c ∧ c.document = some (.ofText "t.json") := by
  have hreading : ∀ digits, (.ok (nested (.table full)) :
      Except Toml.ReadError (Toml.Table Float)) ≠ .error (.numberTooLong digits) := nofun
  have hsection : section? (nested (.table full)) = some full := rfl
  have hsolver : Toml.Value.field? "solver" full = some (.table seeded) := rfl
  have hgood : ¬Overflows full := by
    rintro ⟨-, settings, hsettings, before, i, after, hsplit, -⟩
    obtain rfl := Toml.Value.table.inj (Option.some.inj (hsolver.symm.trans hsettings))
    have hmem : (Text.ofString "tolerance", .int i) ∈ seeded := by
      rw [hsplit]
      exact List.mem_append_right before List.mem_cons_self
    cases List.mem_singleton.1 hmem
  have hread : ofReading (.ofText "pyproject.toml") [] (.ok (nested (.table full))) =
      .ok ⟨some (.ofText "t.json"), { SolverSettings.standard with seed := 7 },
        some (.ofText ".")⟩ := rfl
  refine ⟨hreading, _, hread, ?_, rfl⟩
  obtain ⟨hiff, -⟩ := ofReading_typed_iff (.ofText "pyproject.toml") [] hreading
  rcases hiff.2 (by rintro t ⟨⟩; exact ⟨full, hsection, hgood⟩) with
    ⟨e, he⟩ | ⟨t, ht, entries, c, hentries, hc, hfrom⟩
  · cases hread.symm.trans he
  · obtain rfl := Except.ok.inj ht
    obtain rfl := Option.some.inj (hsection.symm.trans hentries)
    obtain rfl := Except.ok.inj (hread.symm.trans hc)
    exact hfrom

/-- Where the table around a section is an array, or the section is a number, neither comes out, and
an empty text is taken for no section. -/
theorem ofReading_misshapen :
    ofReading (.ofText "pyproject.toml") [] (.ok [("tool", .array [])]) =
      .error (.misshapen (.notATable "list")) ∧
    ofReading (.ofText "pyproject.toml") [] (.ok (nested (.int 7))) =
      .error (.misshapen (.notSearchable "int")) ∧
    ofReading (.ofText "pyproject.toml") [] (.ok (nested (.text ""))) =
      .ok (standard (some (.ofText "."))) ∧
    ¬∀ (path : Path) (text : List Char) (reading : Except Toml.ReadError (Toml.Table Float)),
      (∀ digits, reading ≠ .error (.numberTooLong digits)) →
      (∃ e, ofReading path text reading = .error (.invalid e)) ∨
        ∃ t, reading = .ok t ∧ ∃ entries c, section? t = some entries ∧
          ofReading path text reading = .ok c ∧ ReadFrom path.parent entries c := by
  have harray : ofReading (.ofText "pyproject.toml") [] (.ok [("tool", .array [])]) =
      .error (.misshapen (.notATable "list")) := rfl
  refine ⟨harray, rfl, rfl, fun h => ?_⟩
  rcases h (.ofText "pyproject.toml") [] (.ok [("tool", .array [])]) nofun with
    ⟨e, he⟩ | ⟨t, -, entries, c, -, hc, -⟩
  · cases harray.symm.trans he
  · cases harray.symm.trans hc

end FormulaGraph.Config
