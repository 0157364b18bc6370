import FormulaGraph.Config
import FormulaGraph.Proofs.Except
import FormulaGraph.Proofs.Number.Wholes
/-!
# The settings that a table gives

A table of solver settings is taken over entry by entry. An entry that can be taken over sets what
its key names and nothing else, so the settings that come out are those that the table gives, and
the standard for the rest. One that cannot is an error of the configuration, except for a positive
whole tolerance that is too large for a double. The test for a positive tolerance lets through what
is not below zero and not zero, and so what is undefined.

* `Takes`: what taking over one entry does.
* `TakenFrom`, `Usable`: what the settings of a table should be, and what a solver can work with.
* `ofValue_usable_iff`: where a table gives usable settings or an error of the configuration.
-/
namespace FormulaGraph

namespace Toml

variable {α β : Type}

theorem field?_eq_none {key : Text} {entries : Table α} (h : key ∉ entries.map Prod.fst) :
    Value.field? key entries = none := by
  induction entries with
  | nil => rfl
  | cons e entries ih =>
    rw [List.map_cons, List.mem_cons, not_or] at h
    rw [Value.field?, if_neg (Ne.symm h.1), ih h.2]

theorem field?_eq_some_iff {key : Text} {v : Value α} {entries : Table α}
    (hkeys : (entries.map Prod.fst).Nodup) :
    Value.field? key entries = some v ↔ (key, v) ∈ entries := by
  induction entries with
  | nil => exact iff_of_false nofun List.not_mem_nil
  | cons e entries ih =>
    obtain ⟨k, w⟩ := e
    rw [List.map_cons, List.nodup_cons] at hkeys
    rw [Value.field?, List.mem_cons]
    by_cases hk : k = key
    · subst hk
      have hnot : (k, v) ∉ entries :=
        fun hmem => hkeys.1 (List.mem_map.2 ⟨(k, v), hmem, rfl⟩)
      rw [if_pos rfl, or_iff_left hnot, Option.some.injEq, Prod.mk.injEq, eq_self, true_and,
        eq_comm]
    · have hne : (key, v) ≠ (k, w) := fun heq => hk (Prod.mk.inj heq).1.symm
      rw [if_neg hk, ih hkeys.2, or_iff_right hne]

/-- A setting is what a table gives under its key, or if it gives nothing what it is otherwise. -/
def Given (key : Text) (stands : Value α → β → Prop) (entries : Table α)
    (otherwise setting : β) : Prop :=
  match Value.field? key entries with
  | none => setting = otherwise
  | some v => stands v setting

end Toml

namespace SolverSettings

open Binary64 (wholeLimit)
open Toml (Given)

/-- The tolerance that a value stands for. -/
inductive IsTolerance : Toml.Value Float → Float → Prop where
  | whole {i : Int} (hpos : 0 < i) (hlimit : i < wholeLimit) :
    IsTolerance (.int i) (Scalar.ofInt i)
  | real {x : Float} (hlt : Scalar.lt x Scalar.zero = false) (hzero : Scalar.isZero x = false) :
    IsTolerance (.real x) x

/-- A whole number that is too large for a double. -/
def Oversized (i : Int) : Prop := (wholeLimit : Int) ≤ i

/-- What taking over one entry of a table does to the settings. -/
inductive Takes (s : SolverSettings Float) :
    Text → Toml.Value Float → SolverSettings Float → Prop where
  | maxIterations {i : Int} (h : 1 ≤ i) :
    Takes s "max_iterations" (.int i) { s with maxIterations := i }
  | tolerance {v : Toml.Value Float} {x : Float} (h : IsTolerance v x) :
    Takes s "tolerance" v { s with tolerance := x }
  | perturbation (p : Perturbation) :
    Takes s "perturbation" (.text p.text) { s with perturbation := p }
  | seed (i : Int) : Takes s "seed" (.int i) { s with seed := i }

/-! ## Entries -/

theorem toTolerance_int {i : Int} (hpos : 0 < i) : toTolerance (.int i : Toml.Value Float) =
    if i < wholeLimit then .ok (Scalar.ofInt i) else .error (.misshapen .numberTooLarge) := by
  simp only [toTolerance, if_neg (Int.not_le.2 hpos), Double.isFinite_ofInt_iff hpos]

theorem toTolerance_eq_ok_iff {v : Toml.Value Float} {x : Float} :
    toTolerance v = .ok x ↔ IsTolerance v x := by
  constructor
  · intro h
    cases v with
    | int i =>
      by_cases hpos : 0 < i
      · rw [toTolerance_int hpos] at h
        split at h
        · rename_i hlimit
          obtain rfl := Except.ok.inj h
          exact .whole hpos hlimit
        · cases h
      · rw [toTolerance, if_pos (Int.not_lt.1 hpos)] at h
        cases h
    | real y =>
      rw [toTolerance] at h
      split at h
      · cases h
      · rename_i hpos
        obtain rfl := Except.ok.inj h
        rw [Bool.or_eq_true, not_or, Bool.not_eq_true, Bool.not_eq_true] at hpos
        exact .real hpos.1 hpos.2
    | _ => cases h
  · intro h
    cases h with
    | whole hpos hlimit => rw [toTolerance_int hpos, if_pos hlimit]
    | real hlt hzero => rw [toTolerance, hlt, hzero, if_neg (by decide)]

theorem toTolerance_of_oversized {i : Int} (h : Oversized i) :
    toTolerance (.int i : Toml.Value Float) = .error (.misshapen .numberTooLarge) := by
  have hlimit : 0 < wholeLimit := Binary64.two_pow_le_wholeLimit (k := 0) (by decide)
  have hle : (wholeLimit : Int) ≤ i := h
  rw [toTolerance_int (by omega), if_neg (Int.not_lt.2 hle)]

theorem toTolerance_eq_error {v : Toml.Value Float} {f : ConfigFailure}
    (h : toTolerance v = .error f) : (∃ e, f = .invalid e) ∨ ∃ i, v = .int i ∧ Oversized i := by
  cases v with
  | int i =>
    by_cases hpos : 0 < i
    · rw [toTolerance_int hpos] at h
      split at h
      · cases h
      · rename_i hlimit
        exact .inr ⟨i, rfl, Int.not_lt.1 hlimit⟩
    · rw [toTolerance, if_pos (Int.not_lt.1 hpos)] at h
      cases h
      exact .inl ⟨_, rfl⟩
  | real x =>
    rw [toTolerance] at h
    split at h
    · cases h
      exact .inl ⟨_, rfl⟩
    · cases h
  | _ =>
    cases h
    exact .inl ⟨_, rfl⟩

theorem toPerturbation_eq_ok_iff {v : Toml.Value Float} {p : Perturbation} :
    toPerturbation v = .ok p ↔ v = .text p.text := by
  constructor
  · intro h
    unfold toPerturbation at h
    dsimp only at h
    split at h
    · rename_i t
      split at h
      · rename_i q hq
        obtain rfl := Except.ok.inj h
        have := List.find?_some hq
        rw [of_decide_eq_true this]
      · cases h
    · cases h
  · rintro rfl
    cases p <;> rfl

theorem addEntry_eq_ok_iff {s s' : SolverSettings Float} {key : Text} {v : Toml.Value Float} :
    s.addEntry key v = .ok s' ↔ Takes s key v s' := by
  constructor
  · intro h
    unfold addEntry at h
    split at h
    · rename_i hkey
      subst hkey
      split at h
      · rename_i i
        split at h
        · cases h
        · obtain rfl := Except.ok.inj h
          exact .maxIterations (by omega)
      · cases h
    · split at h
      · rename_i hkey
        subst hkey
        obtain ⟨x, hx, rfl⟩ := ok_of_map h
        exact .tolerance (toTolerance_eq_ok_iff.1 hx)
      · split at h
        · rename_i hkey
          subst hkey
          obtain ⟨p, hp, rfl⟩ := ok_of_map h
          obtain rfl := toPerturbation_eq_ok_iff.1 hp
          exact .perturbation p
        · split at h
          · rename_i hkey
            subst hkey
            split at h
            · obtain rfl := Except.ok.inj h
              exact .seed _
            · cases h
          · cases h
  · intro h
    unfold addEntry
    cases h with
    | maxIterations h =>
      rw [if_pos rfl]
      exact if_neg (by omega)
    | tolerance h =>
      rw [if_neg (by decide), if_pos rfl, toTolerance_eq_ok_iff.2 h, Except.map]
    | perturbation p =>
      rw [if_neg (by decide), if_neg (by decide), if_pos rfl, toPerturbation_eq_ok_iff.2 rfl,
        Except.map]
    | seed i => rw [if_neg (by decide), if_neg (by decide), if_neg (by decide), if_pos rfl]

theorem toPerturbation_eq_error {v : Toml.Value Float} {f : ConfigFailure}
    (h : toPerturbation v = .error f) : ∃ e, f = .invalid e := by
  unfold toPerturbation at h
  dsimp only at h
  split at h
  · split at h
    · cases h
    · cases h
      exact ⟨_, rfl⟩
  · cases h
    exact ⟨_, rfl⟩

theorem addEntry_of_oversized (s : SolverSettings Float) {i : Int} (h : Oversized i) :
    s.addEntry "tolerance" (.int i) = .error (.misshapen .numberTooLarge) := by
  rw [addEntry, if_neg (by decide), if_pos rfl, toTolerance_of_oversized h, Except.map]

/-- Every other entry is an error of the configuration. -/
theorem addEntry_eq_error {s : SolverSettings Float} {key : Text} {v : Toml.Value Float}
    {f : ConfigFailure} (h : s.addEntry key v = .error f) :
    (∃ e, f = .invalid e) ∨ ∃ i, key = "tolerance" ∧ v = .int i ∧ Oversized i := by
  unfold addEntry at h
  split at h
  · split at h
    · split at h
      · cases h
        exact .inl ⟨_, rfl⟩
      · cases h
    · cases h
      exact .inl ⟨_, rfl⟩
  · split at h
    · rename_i hkey
      rcases toTolerance_eq_error (error_of_map h) with hinvalid | ⟨i, hv, hlarge⟩
      · exact .inl hinvalid
      · exact .inr ⟨i, hkey, hv, hlarge⟩
    · split at h
      · exact .inl (toPerturbation_eq_error (error_of_map h))
      · split at h
        · split at h
          · cases h
          · cases h
            exact .inl ⟨_, rfl⟩
        · cases h
          exact .inl ⟨_, rfl⟩

/-! ## Tables -/

/-- The entries that can be taken over. -/
def Accepted (e : Text × Toml.Value Float) : Prop :=
  ∃ s s' : SolverSettings Float, Takes s e.1 e.2 s'

/-- What is taken over does not depend on what was taken over before. -/
theorem exists_addEntry_iff (s : SolverSettings Float) (e : Text × Toml.Value Float) :
    (∃ s', s.addEntry e.1 e.2 = .ok s') ↔ Accepted e := by
  constructor
  · rintro ⟨s', h⟩
    exact ⟨s, s', addEntry_eq_ok_iff.1 h⟩
  · rintro ⟨t, t', h⟩
    obtain ⟨key, v⟩ := e
    cases h with
    | maxIterations h => exact ⟨_, addEntry_eq_ok_iff.2 (.maxIterations h)⟩
    | tolerance h => exact ⟨_, addEntry_eq_ok_iff.2 (.tolerance h)⟩
    | perturbation p => exact ⟨_, addEntry_eq_ok_iff.2 (.perturbation p)⟩
    | seed i => exact ⟨_, addEntry_eq_ok_iff.2 (.seed i)⟩

/-- A whole tolerance is reached that is too large. -/
def Overflows (entries : Toml.Table Float) : Prop :=
  ∃ (before : Toml.Table Float) (i : Int) (after : Toml.Table Float),
    entries = before ++ (Text.ofString "tolerance", .int i) :: after ∧
      (∀ e ∈ before, Accepted e) ∧ Oversized i

theorem exists_ofValue_iff {entries : Toml.Table Float} :
    (∃ s, ofValue (.table entries) = .ok s) ↔ ∀ e ∈ entries, Accepted e :=
  exists_foldlM_iff exists_addEntry_iff

theorem exists_table_of_ofValue {v : Toml.Value Float} {s : SolverSettings Float}
    (h : ofValue v = .ok s) : ∃ entries, v = .table entries := by
  cases v with
  | table entries => exact ⟨entries, rfl⟩
  | _ => cases h

theorem ofValue_of_overflows {entries : Toml.Table Float} (h : Overflows entries) :
    ofValue (.table entries) = .error (.misshapen .numberTooLarge) := by
  obtain ⟨before, i, after, hsplit, hbefore, hlarge⟩ := h
  obtain ⟨s, hs⟩ := exists_ofValue_iff.2 hbefore
  exact foldlM_eq_error_iff.2 ⟨before, _, after, s, hsplit, hs, s.addEntry_of_oversized hlarge⟩

theorem ofValue_eq_error {v : Toml.Value Float} {f : ConfigFailure} (h : ofValue v = .error f) :
    (∃ e, f = .invalid e) ∨ ∃ entries, v = .table entries ∧ Overflows entries := by
  unfold ofValue at h
  split at h
  · rename_i entries
    obtain ⟨before, e, after, s, hsplit, hbefore, he⟩ := foldlM_eq_error_iff.1 h
    obtain ⟨key, value⟩ := e
    rcases addEntry_eq_error he with hinvalid | ⟨i, rfl, rfl, hlarge⟩
    · exact .inl hinvalid
    · exact .inr ⟨entries, rfl, before, i, after, hsplit, exists_ofValue_iff.1 ⟨s, hbefore⟩, hlarge⟩
  · cases h
    exact .inl ⟨_, rfl⟩

/-! ## What is given and what is not -/

/-- Where an entry sets what its key names and nothing else, so does a table. -/
theorem given_of_foldlM {β : Type} {key : Text} {stands : Toml.Value Float → β → Prop}
    {get : SolverSettings Float → β}
    (hstep : ∀ {s k v s'}, Takes s k v s' → if k = key then stands v (get s') else get s' = get s)
    {entries : Toml.Table Float} (hkeys : (entries.map Prod.fst).Nodup)
    {s s' : SolverSettings Float}
    (h : entries.foldlM (fun s e => s.addEntry e.1 e.2) s = .ok s') :
    Given key stands entries (get s) (get s') := by
  induction entries generalizing s with
  | nil =>
    cases h
    rfl
  | cons e entries ih =>
    obtain ⟨k, v⟩ := e
    rw [List.map_cons, List.nodup_cons] at hkeys
    rw [List.foldlM_cons] at h
    obtain ⟨next, hnext, h⟩ := ok_of_bind h
    have hrest := ih hkeys.2 h
    have htakes := hstep (addEntry_eq_ok_iff.1 hnext)
    rw [Given, Toml.Value.field?]
    by_cases hk : k = key
    · subst hk
      rw [if_pos rfl] at htakes ⊢
      rw [Given, Toml.field?_eq_none hkeys.1] at hrest
      have hsame : get s' = get next := hrest
      show stands v (get s')
      rwa [hsame]
    · rw [if_neg hk] at htakes ⊢
      rwa [← htakes]

/-- The settings of a table: what it gives, and the standard for everything else. -/
structure TakenFrom (entries : Toml.Table Float) (s : SolverSettings Float) : Prop where
  maxIterations : Given "max_iterations" (fun v i => v = .int i) entries
    (standard : SolverSettings Float).maxIterations s.maxIterations
  tolerance : Given "tolerance" IsTolerance entries standard.tolerance s.tolerance
  perturbation : Given "perturbation" (fun v p => v = .text p.text) entries
    (standard : SolverSettings Float).perturbation s.perturbation
  seed : Given "seed" (fun v i => v = .int i) entries (standard : SolverSettings Float).seed s.seed

theorem takenFrom_of_ofValue {entries : Toml.Table Float} (hkeys : (entries.map Prod.fst).Nodup)
    {s : SolverSettings Float} (h : ofValue (.table entries) = .ok s) : TakenFrom entries s where
  maxIterations := by
    refine given_of_foldlM (fun htakes => ?_) hkeys h
    cases htakes <;> rfl
  tolerance := by
    refine given_of_foldlM (fun htakes => ?_) hkeys h
    cases htakes with
    | tolerance h => exact h
    | _ => rfl
  perturbation := by
    refine given_of_foldlM (fun htakes => ?_) hkeys h
    cases htakes <;> rfl
  seed := by
    refine given_of_foldlM (fun htakes => ?_) hkeys h
    cases htakes <;> rfl

/-! ## What a solver can work with -/

/-- Settings with which a solver takes a step and can come to an end. -/
structure Usable (s : SolverSettings Float) : Prop where
  maxIterations : 1 ≤ s.maxIterations
  tolerance : Scalar.lt Scalar.zero s.tolerance = true
  perturbation : s.perturbation.text = "deterministic" ∨ s.perturbation.text = "random"

/-- Settings as they come out of a table: usable but for a tolerance that is undefined. -/
structure Sound (s : SolverSettings Float) : Prop where
  maxIterations : 1 ≤ s.maxIterations
  tolerance : Scalar.lt Scalar.zero s.tolerance = true ∨ Scalar.isNan s.tolerance = true

theorem zero_lt_tolerance_standard :
    Scalar.lt Scalar.zero (standard : SolverSettings Float).tolerance = true := by decide +kernel

theorem sound_standard : Sound standard := ⟨by decide, .inl zero_lt_tolerance_standard⟩

theorem IsTolerance.zero_lt_or_isNan {v : Toml.Value Float} {x : Float} (h : IsTolerance v x) :
    Scalar.lt Scalar.zero x = true ∨ Scalar.isNan x = true := by
  cases h with
  | whole hpos _ => exact .inl (Double.zero_lt_ofInt hpos)
  | real hlt hzero => exact Double.zero_lt_or_isNan hlt hzero

theorem IsTolerance.isNan_iff {v : Toml.Value Float} {x : Float} (h : IsTolerance v x) :
    Scalar.isNan x = true ↔ ∃ y, v = .real y ∧ Scalar.isNan y = true := by
  cases h with
  | whole hpos _ =>
    exact iff_of_false (Double.not_isNan_of_zero_lt (Double.zero_lt_ofInt hpos)) nofun
  | real => simp only [Toml.Value.real.injEq, exists_eq_left']

theorem Sound.takes {s s' : SolverSettings Float} {key : Text} {v : Toml.Value Float}
    (hs : Sound s) (h : Takes s key v s') : Sound s' := by
  cases h with
  | maxIterations h => exact ⟨h, hs.tolerance⟩
  | tolerance h => exact ⟨hs.maxIterations, h.zero_lt_or_isNan⟩
  | perturbation p => exact ⟨hs.maxIterations, hs.tolerance⟩
  | seed i => exact ⟨hs.maxIterations, hs.tolerance⟩

theorem sound_of_ofValue {entries : Toml.Table Float} {s : SolverSettings Float}
    (h : ofValue (.table entries) = .ok s) : Sound s :=
  foldlM_preserves (fun hs h => hs.takes (addEntry_eq_ok_iff.1 h)) sound_standard h

theorem Sound.usable {s : SolverSettings Float} (hs : Sound s)
    (hnan : ¬Scalar.isNan s.tolerance = true) : Usable s where
  maxIterations := hs.maxIterations
  tolerance := hs.tolerance.resolve_right hnan
  perturbation := by cases s.perturbation <;> decide

/-- Every entry is taken over, and one of them is a tolerance that is undefined. -/
def Undefined (entries : Toml.Table Float) : Prop :=
  (∀ e ∈ entries, Accepted e) ∧
    ∃ x, (Text.ofString "tolerance", .real x) ∈ entries ∧ Scalar.isNan x = true

theorem TakenFrom.isNan_tolerance_iff {entries : Toml.Table Float} {s : SolverSettings Float}
    (hkeys : (entries.map Prod.fst).Nodup) (h : TakenFrom entries s) :
    Scalar.isNan s.tolerance = true ↔
      ∃ x, (Text.ofString "tolerance", .real x) ∈ entries ∧ Scalar.isNan x = true := by
  have hgiven := h.tolerance
  simp only [← Toml.field?_eq_some_iff hkeys]
  rw [Given] at hgiven
  split at hgiven
  · rename_i hnone
    rw [hgiven, hnone]
    exact iff_of_false (Double.not_isNan_of_zero_lt zero_lt_tolerance_standard) nofun
  · rename_i v hv
    rw [hv, hgiven.isNan_iff]
    simp only [Option.some.injEq]

/-- **A table gives usable settings or an error of the configuration**, except where its first wrong
entry is a tolerance too large for a double, and where it gives an undefined tolerance and nothing
is wrong. -/
theorem ofValue_usable_iff {v : Toml.Value Float}
    (hkeys : ∀ entries, v = .table entries → (entries.map Prod.fst).Nodup) :
    (((∃ e, ofValue v = .error (.invalid e)) ∨
        ∃ entries s, v = .table entries ∧ ofValue v = .ok s ∧ Usable s ∧ TakenFrom entries s) ↔
      ¬∃ entries, v = .table entries ∧ (Overflows entries ∨ Undefined entries)) ∧
    (∀ entries, v = .table entries → Overflows entries →
      ofValue v = .error (.misshapen .numberTooLarge)) ∧
    ∀ entries, v = .table entries → Undefined entries →
      ∃ s, ofValue v = .ok s ∧ 1 ≤ s.maxIterations ∧ Scalar.isNan s.tolerance = true ∧
        TakenFrom entries s := by
  have hoverflows : ∀ entries, v = .table entries → Overflows entries →
      ofValue v = .error (.misshapen .numberTooLarge) := by
    rintro entries rfl h
    exact ofValue_of_overflows h
  have hundefined : ∀ entries, v = .table entries → Undefined entries →
      ∃ s, ofValue v = .ok s ∧ 1 ≤ s.maxIterations ∧ Scalar.isNan s.tolerance = true ∧
        TakenFrom entries s := by
    rintro entries rfl ⟨haccepted, hnan⟩
    obtain ⟨s, hs⟩ := exists_ofValue_iff.2 haccepted
    have htaken := takenFrom_of_ofValue (hkeys entries rfl) hs
    exact ⟨s, hs, (sound_of_ofValue hs).maxIterations,
      (htaken.isNan_tolerance_iff (hkeys entries rfl)).2 hnan, htaken⟩
  refine ⟨⟨?_, ?_⟩, hoverflows, hundefined⟩
  · rintro h ⟨entries, hv, hbad⟩
    rcases hbad with hbad | hbad
    · rw [hoverflows entries hv hbad] at h
      rcases h with ⟨e, h⟩ | ⟨-, s, -, h, -⟩
      · cases h
      · cases h
    · obtain ⟨s, hs, -, hnan, -⟩ := hundefined entries hv hbad
      rw [hs] at h
      rcases h with ⟨e, h⟩ | ⟨-, s', -, h, husable, -⟩
      · cases h
      · obtain rfl := Except.ok.inj h
        exact Double.not_isNan_of_zero_lt husable.tolerance hnan
  · intro hgood
    cases h : ofValue v with
    | error f =>
      rcases ofValue_eq_error h with ⟨e, rfl⟩ | ⟨entries, hv, hbad⟩
      · exact .inl ⟨e, rfl⟩
      · exact absurd ⟨entries, hv, .inl hbad⟩ hgood
    | ok s =>
      obtain ⟨entries, rfl⟩ := exists_table_of_ofValue h
      have htaken := takenFrom_of_ofValue (hkeys entries rfl) h
      refine .inr ⟨entries, s, rfl, rfl, (sound_of_ofValue h).usable fun hnan => ?_, htaken⟩
      exact hgood ⟨entries, rfl, .inr
        ⟨exists_ofValue_iff.1 ⟨s, h⟩, (htaken.isNan_tolerance_iff (hkeys entries rfl)).1 hnan⟩⟩

/-- A table without a perturbation. -/
def partly : Toml.Table Float :=
  [("seed", .int 7), ("tolerance", .int 2), ("max_iterations", .int 50)]

theorem ofValue_usable_partly :
    (partly.map Prod.fst).Nodup ∧ ∃ s, ofValue (.table partly) = .ok s ∧ Usable s ∧
      TakenFrom partly s ∧ s.maxIterations = 50 ∧ s.perturbation = .random := by
  have hlimit : 4 ≤ wholeLimit := Binary64.two_pow_le_wholeLimit (k := 2) (by decide)
  have hkeys : (partly.map Prod.fst).Nodup := by decide +kernel
  have hgiven : ∀ entries, .table partly = Toml.Value.table entries →
      (entries.map Prod.fst).Nodup := by
    rintro entries ⟨⟩
    exact hkeys
  have haccepted : ∀ e ∈ partly, Accepted e := by
    simp only [partly, List.forall_mem_cons]
    exact ⟨⟨standard, _, .seed 7⟩, ⟨standard, _, .tolerance (.whole (by decide) (by omega))⟩,
      ⟨standard, _, .maxIterations (by decide)⟩, nofun⟩
  have hgood : ¬∃ entries, .table partly = Toml.Value.table entries ∧
      (Overflows entries ∨ Undefined entries) := by
    rintro ⟨entries, ⟨⟩, ⟨before, i, after, hsplit, -, hlarge⟩ | ⟨-, x, hx, -⟩⟩
    · have hmem : (Text.ofString "tolerance", .int i) ∈ partly := by
        rw [hsplit]
        exact List.mem_append_right before List.mem_cons_self
      rw [← Toml.field?_eq_some_iff hkeys] at hmem
      obtain rfl : 2 = i := Toml.Value.int.inj (Option.some.inj hmem)
      have hle : (wholeLimit : Int) ≤ 2 := hlarge
      omega
    · rw [← Toml.field?_eq_some_iff hkeys] at hx
      cases hx
  obtain ⟨s, hs⟩ := exists_ofValue_iff.2 haccepted
  refine ⟨hkeys, s, hs, ?_⟩
  rcases (ofValue_usable_iff hgiven).1.2 hgood with
    ⟨e, he⟩ | ⟨entries, s', heq, hs', husable, htaken⟩
  · cases hs.symm.trans he
  · cases heq
    obtain rfl := Except.ok.inj (hs.symm.trans hs')
    have hfifty : Toml.Value.int 50 = .int s.maxIterations := htaken.maxIterations
    exact ⟨husable, htaken, (Toml.Value.int.inj hfifty).symm, htaken.perturbation⟩

/-- A table with an undefined tolerance. -/
def undefined : Toml.Table Float := [("tolerance", .real Scalar.nan)]

/-- A table with a tolerance that is too large for a double. -/
def oversized : Toml.Table Float := [("tolerance", .int (10 ^ 400))]

/-- The one is taken over, and the other ends otherwise than in an error of the configuration. -/
theorem ofValue_unusable :
    ofValue (.table undefined) = .ok ⟨100, Scalar.nan, .random, 0⟩ ∧
    ofValue (.table oversized) = .error (.misshapen .numberTooLarge) ∧
    ¬∀ v : Toml.Value Float, (∀ entries, v = .table entries → (entries.map Prod.fst).Nodup) →
      (∃ e, ofValue v = .error (.invalid e)) ∨
        ∃ entries s, v = .table entries ∧ ofValue v = .ok s ∧ Usable s ∧ TakenFrom entries s := by
  have hnan : IsTolerance (.real Scalar.nan) Scalar.nan :=
    .real (by decide +kernel) (by decide +kernel)
  have hundefined : ofValue (.table undefined) = .ok ⟨100, Scalar.nan, .random, 0⟩ := by
    have hentry := (addEntry_eq_ok_iff (s := standard)).2 (.tolerance hnan)
    rw [ofValue, undefined, List.foldlM_cons, hentry]
    rfl
  have hlarge : wholeLimit ≤ 10 ^ 400 :=
    calc wholeLimit ≤ 2 ^ 1024 := Binary64.wholeLimit_bounds.2
      _ ≤ 2 ^ (3 * 400) := pow_le_pow_right₀ one_le_two (by decide)
      _ = (2 ^ 3) ^ 400 := pow_mul 2 3 400
      _ ≤ 10 ^ 400 := pow_le_pow_left₀ (Nat.zero_le _) (by decide) 400
  have hoversized : Oversized (10 ^ 400) := by
    rw [Oversized]
    exact_mod_cast hlarge
  have hoverflows : Overflows oversized := ⟨[], 10 ^ 400, [], rfl, nofun, hoversized⟩
  refine ⟨hundefined, ofValue_of_overflows hoverflows, fun h => ?_⟩
  rcases h (.table undefined) (by rintro entries ⟨⟩; decide +kernel) with
    ⟨e, he⟩ | ⟨entries, s, -, hs, husable, -⟩
  · cases hundefined.symm.trans he
  · obtain rfl := Except.ok.inj (hundefined.symm.trans hs)
    exact Double.not_isNan_of_zero_lt husable.tolerance (by decide +kernel)

end SolverSettings

end FormulaGraph
