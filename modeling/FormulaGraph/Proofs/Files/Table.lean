import FormulaGraph.Files.Table
import FormulaGraph.Proofs.Except
/-!
# Files written and read again

Writing a file makes directories and then puts the text at the place that the path leads to. The way
there goes through directories alone, so the path leads to the same place afterwards.

* `read_write`: what was written is read.
* `console_write`: the console stays what it was.
-/
namespace FormulaGraph.FileTable

/-- A step that leads somewhere does so whatever files there are. -/
theorem step_of_ok {t : FileTable} {here place : Place} {part : Text}
    (h : t.step here part = .ok place) (files : OrderedMap Place String) :
    ({ t with files } : FileTable).step here part = .ok place := by
  have hsame : ({ t with files } : FileTable).isDirectory here = t.isDirectory here := rfl
  unfold step at h ⊢
  rw [hsame]
  split at h
  · cases h
  · rename_i hdirectory
    rwa [if_neg hdirectory]

theorem follow_of_ok {t : FileTable} {p : Path} {place : Place} (h : t.follow p = .ok place)
    (files : OrderedMap Place String) :
    ({ t with files } : FileTable).follow p = .ok place := by
  unfold follow at h ⊢
  split at h
  · cases h
  · rename_i hlength
    rw [if_neg hlength]
    exact foldlM_of_ok (fun hstep => step_of_ok hstep files) h

theorem console_makeUnlessThere {t t' : FileTable} {p : Path} (h : t.makeUnlessThere p = .ok t') :
    t'.console = t.console := by
  unfold makeUnlessThere at h
  split at h
  · rename_i made hmade
    cases h
    unfold makeOne at hmade
    obtain ⟨place, -, hmade⟩ := ok_of_bind hmade
    split at hmade <;> cases hmade
    rfl
  · split at h
    · split at h <;> cases h
      rfl
    · cases h

/-- Making directories leaves the console as it is. -/
theorem console_makeDirectory {t t' : FileTable} {p : Path} {depth : Nat}
    (h : t.makeDirectory p depth = .ok t') : t'.console = t.console := by
  induction depth generalizing t t' p with
  | zero => cases h
  | succ depth ih =>
    unfold makeDirectory at h
    split at h
    · rename_i hmade
      cases h
      exact console_makeUnlessThere hmade
    · obtain ⟨above, habove, h⟩ := ok_of_bind h
      split at h
      · rename_i hmade
        cases h
        exact (console_makeUnlessThere hmade).trans (ih habove)
      · cases h
    · cases h

/-- A file is written at the place that the path leads to. -/
theorem write_eq_ok {t t' : FileTable} {p : Path} {s : String} (h : t.write p s = .ok t') :
    ∃ (made : FileTable) (place : Place), made.follow p = .ok place ∧
      made.console = t.console ∧ t' = { made with files := made.files.insert place s } := by
  unfold write at h
  obtain ⟨made, hmade, h⟩ := ok_of_bind h
  split at h
  · cases h
  · rename_i place hplace
    split at h
    · cases h
    · cases h
      exact ⟨made, place, hplace, console_makeDirectory hmade, rfl⟩

theorem console_write {t t' : FileTable} {p : Path} {s : String} (h : t.write p s = .ok t') :
    t'.console = t.console := by
  obtain ⟨made, place, -, hconsole, rfl⟩ := write_eq_ok h
  exact hconsole

/-- Reading gives what was written last. -/
theorem read_write {t t' : FileTable} {p : Path} {s : String} (h : t.write p s = .ok t') :
    t'.read p = .ok s.toUTF8 := by
  obtain ⟨made, place, hplace, -, rfl⟩ := write_eq_ok h
  have htext : ({ made with files := made.files.insert place s } : FileTable).text p = .ok s := by
    simp only [text, follow_of_ok hplace, bind, Except.bind, OrderedMap.get?_insert, if_pos]
    rfl
  rw [read, htext]

end FormulaGraph.FileTable
