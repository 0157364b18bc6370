import FormulaGraph.Command.Run
import FormulaGraph.Proofs.Files.Table
/-!
# Work on a table of files

What a command prints does not decide how it goes on, so a piece of work is known by what it comes
to and by the files that it leaves (`Ends`). The lemmas go through the work step by step: a step
that comes to a value is followed by the next one, and one that ends the work is the last.

**The console** may refuse an entry, and then the work ends there. `Prints` is said of work that
comes to its result unless that happens, and leaves the files alone if it does.

Where work can end in several ways, `EndsIn` lists them. Often it does not matter which of them it
is, as long as the work has foreseen it. That is only asked of work on a console that prints
everything (`Settles`).
-/
namespace FormulaGraph

/-- The console refuses nothing. -/
def FileTable.PrintsAll (t : FileTable) : Prop := ∀ p, t.console p = none

theorem FileTable.PrintsAll.write {t t' : FileTable} {p : Path} {s : String} (ht : t.PrintsAll)
    (h : t.write p s = .ok t') : t'.PrintsAll := by
  unfold FileTable.PrintsAll
  rwa [FileTable.console_write h]

namespace Work

variable {β γ : Type}

/-- On a table of files the work comes to a result and leaves another table. -/
def Ends (w : Work (StateM FileTable) β) (t : FileTable) (result : Except Ending β)
    (t' : FileTable) : Prop :=
  ∀ printed, ∃ printed', (StateT.run (ExceptT.run w) printed).run t = ((result, printed'), t')

variable {w : Work (StateM FileTable) β} {f : β → Work (StateM FileTable) γ} {t t' t'' : FileTable}

theorem ends_pure (x : β) (t : FileTable) : Ends (pure x) t (.ok x) t :=
  fun printed => ⟨printed, rfl⟩

theorem Ends.bind {x : β} {result : Except Ending γ} (hw : Ends w t (.ok x) t')
    (hf : Ends (f x) t' result t'') : Ends (w >>= f) t result t'' := by
  intro printed
  obtain ⟨printed', hw⟩ := hw printed
  obtain ⟨printed'', hf⟩ := hf printed'
  refine ⟨printed'', ?_⟩
  rw [ExceptT.run_bind, StateT.run_bind, StateT.run_bind, hw]
  exact hf

theorem Ends.stop {e : Ending} (hw : Ends w t (.error e) t') : Ends (w >>= f) t (.error e) t' := by
  intro printed
  obtain ⟨printed', hw⟩ := hw printed
  refine ⟨printed', ?_⟩
  rw [ExceptT.run_bind, StateT.run_bind, StateT.run_bind, hw]
  rfl

theorem ends_fail (t : FileTable) : Ends (fail : Work _ β) t (.error .failed) t :=
  fun printed => ⟨printed, rfl⟩

theorem ends_crash (why : Crash) (t : FileTable) :
    Ends (crash why : Work _ β) t (.error (.crashed why)) t :=
  fun printed => ⟨printed, rfl⟩

theorem ends_shown {x : Except UnitError β} {y : β} (h : x = .ok y) (t : FileTable) :
    Ends (shown x) t (.ok y) t := by
  rw [h]
  exact ends_pure y t

theorem ends_perform {x : StateM FileTable β} {b : β} (h : x.run t = (b, t')) :
    Ends (perform x) t (.ok b) t' := by
  intro printed
  refine ⟨printed, ?_⟩
  change (x.run t >>= fun p => pure ((Except.ok p.1, printed), p.2) : Id _) = _
  rw [h]
  rfl

theorem ends_read (t : FileTable) (path : Path) :
    Ends (perform (Surroundings.read path)) t (.ok (t.read path)) t :=
  ends_perform rfl

theorem ends_exportDate (t : FileTable) :
    Ends (perform Surroundings.exportDate) t (.ok t.exportDate) t :=
  ends_perform rfl

theorem ends_write {path : Path} {text : String} (h : t.write path text = .ok t') :
    Ends (perform (Surroundings.write path text)) t (.ok (.ok ())) t' := by
  refine ends_perform ?_
  simp only [Surroundings.write, StateT.run_bind, StateT.run_get, pure_bind, h]
  rfl

theorem ends_write_of_error {path : Path} {text : String} {e : FileError}
    (h : t.write path text = .error e) :
    Ends (perform (Surroundings.write path text)) t (.ok (.error e)) t := by
  refine ends_perform ?_
  simp only [Surroundings.write, StateT.run_bind, StateT.run_get, pure_bind, h]
  rfl

/-! ## Printing -/

/-- The work comes to a result, unless the console refuses an entry before the work changes a file.
-/
def Prints (w : Work (StateM FileTable) β) (t : FileTable) (result : Except Ending β)
    (t' : FileTable) : Prop :=
  Ends w t result t' ∨ ¬t.PrintsAll ∧ ∃ why, Ends w t (.error (.crashed (.markup why))) t

theorem Ends.prints {result : Except Ending β} (h : Ends w t result t') : Prints w t result t' :=
  .inl h

theorem Prints.ends {result : Except Ending β} (h : Prints w t result t') (ht : t.PrintsAll) :
    Ends w t result t' := h.resolve_right fun hrefused => hrefused.1 ht

theorem Prints.bind {x : β} {result : Except Ending γ} (hw : Prints w t (.ok x) t)
    (hf : Prints (f x) t result t') : Prints (w >>= f) t result t' := by
  rcases hw with hw | ⟨hrefuses, why, hw⟩
  · rcases hf with hf | ⟨hrefuses, why, hf⟩
    · exact .inl (hw.bind hf)
    · exact .inr ⟨hrefuses, why, hw.bind hf⟩
  · exact .inr ⟨hrefuses, why, hw.stop⟩

theorem Prints.stop {e : Ending} (hw : Prints w t (.error e) t) :
    Prints (w >>= f) t (.error e) t := by
  rcases hw with hw | ⟨hrefuses, why, hw⟩
  · exact .inl hw.stop
  · exact .inr ⟨hrefuses, why, hw.stop⟩

theorem ends_refusal (p : Printed) (t : FileTable) :
    Ends (perform (Surroundings.refusal? p)) t (.ok (t.console p)) t := ends_perform rfl

theorem ends_print {e : Entry} (h : t.console e.printed = none) :
    Ends (print e) t (.ok ()) t := by
  have hasks := ends_refusal e.printed t
  rw [h] at hasks
  exact hasks.bind fun _ => ⟨_, rfl⟩

theorem ends_print_of_refusal {e : Entry} {why : MarkupError}
    (h : t.console e.printed = some why) :
    Ends (print e) t (.error (.crashed (.markup why))) t := by
  have hasks := ends_refusal e.printed t
  rw [h] at hasks
  exact hasks.bind (ends_crash _ t)

theorem prints_print (e : Entry) (t : FileTable) : Prints (print e) t (.ok ()) t := by
  cases hrefusal : t.console e.printed with
  | none => exact .inl (ends_print hrefusal)
  | some why =>
    refine .inr ⟨fun ht => ?_, why, ends_print_of_refusal hrefusal⟩
    cases (ht e.printed).symm.trans hrefusal

theorem prints_say (markup : Text) (t : FileTable) : Prints (say markup) t (.ok ()) t :=
  prints_print _ t

theorem prints_failWith (markup : Text) (t : FileTable) :
    Prints (failWith markup : Work _ β) t (.error .failed) t :=
  (prints_say markup t).bind (ends_fail t).prints

/-- Work that is done for one entry after the other and leaves the files alone. -/
theorem prints_forM {es : List γ} {f : γ → Work (StateM FileTable) Unit}
    (h : ∀ e ∈ es, Prints (f e) t (.ok ()) t) : Prints (es.forM f) t (.ok ()) t := by
  induction es with
  | nil => exact (ends_pure () t).prints
  | cons e es ih =>
    obtain ⟨he, hes⟩ := List.forall_mem_cons.1 h
    exact he.bind (ih hes)

/-- Work that breaks off at some of the entries ends at the first of these. -/
theorem prints_forM_of_stop {es : List γ} {f : γ → Work (StateM FileTable) Unit} {p : γ → Prop}
    {stop : γ → Ending} (hgood : ∀ e ∈ es, p e → Prints (f e) t (.ok ()) t)
    (hstop : ∀ e ∈ es, ¬p e → Prints (f e) t (.error (stop e)) t) (h : ∃ e ∈ es, ¬p e) :
    ∃ e ∈ es, ¬p e ∧ Prints (es.forM f) t (.error (stop e)) t := by
  induction es with
  | nil => simp at h
  | cons e es ih =>
    obtain ⟨he, hgood⟩ := List.forall_mem_cons.1 hgood
    obtain ⟨hestop, hstop⟩ := List.forall_mem_cons.1 hstop
    by_cases hp : p e
    · have hrest : ∃ e ∈ es, ¬p e := by simpa [hp] using h
      obtain ⟨d, hd, hpd, hends⟩ := ih hgood hstop hrest
      exact ⟨d, List.mem_cons_of_mem _ hd, hpd, (he hp).bind hends⟩
    · exact ⟨e, List.mem_cons_self, hp, (hestop hp).stop⟩

/-! ## The ways in which work ends -/

/-- The work ends in one of the ways that `S` describes. -/
def EndsIn (w : Work (StateM FileTable) β) (t : FileTable)
    (S : Except Ending β → FileTable → Prop) : Prop :=
  ∃ result t', Ends w t result t' ∧ S result t'

/-- A step that comes to a value is followed by the next one. -/
theorem Ends.next {x : β} {S : Except Ending γ → FileTable → Prop} (hw : Ends w t (.ok x) t')
    (hf : EndsIn (f x) t' S) : EndsIn (w >>= f) t S := by
  obtain ⟨result, t'', hends, hS⟩ := hf
  exact ⟨result, t'', hw.bind hends, hS⟩

/-- A step that prints is followed by the next one, unless the console refuses. -/
theorem Prints.next {x : β} {S : Except Ending γ → FileTable → Prop} (hw : Prints w t (.ok x) t)
    (hrefused : ¬t.PrintsAll → ∀ why, S (.error (.crashed (.markup why))) t)
    (hf : EndsIn (f x) t S) : EndsIn (w >>= f) t S := by
  rcases hw with hw | ⟨hrefuses, why, hw⟩
  · exact hw.next hf
  · exact ⟨_, t, hw.stop, hrefused hrefuses why⟩

/-- The last step comes to its result, unless the console refuses. -/
theorem Prints.last {result : Except Ending β} {S : Except Ending β → FileTable → Prop}
    (hw : Prints w t result t')
    (hrefused : ¬t.PrintsAll → ∀ why, S (.error (.crashed (.markup why))) t) (hS : S result t') :
    EndsIn w t S := by
  rcases hw with hw | ⟨hrefuses, why, hw⟩
  · exact ⟨result, t', hw, hS⟩
  · exact ⟨_, t, hw, hrefused hrefuses why⟩

/-- On a console that prints everything the work comes to a value, or says why it fails. -/
def Settles (w : Work (StateM FileTable) β) (t : FileTable) : Prop :=
  t.PrintsAll → EndsIn w t fun result _ => ∀ e, result = .error e → e = .failed

theorem settles_of_prints {x : β} (h : Prints w t (.ok x) t') : Settles w t :=
  fun ht => ⟨_, t', h.ends ht, fun _ he => nomatch he⟩

theorem settles_of_failed (h : Prints w t (.error .failed) t') : Settles w t :=
  fun ht => ⟨_, t', h.ends ht, fun _ he => (Except.error.inj he).symm⟩

theorem Prints.settles {x : β} (hw : Prints w t (.ok x) t) (hf : Settles (f x) t) :
    Settles (w >>= f) t := fun ht => (hw.ends ht).next (hf ht)

/-- How a result appears in a report. -/
def ending? : Except Ending Unit → Option Ending
  | .ok () => none
  | .error e => some e

theorem Ends.report {w : Work (StateM FileTable) Unit} {result : Except Ending Unit}
    (h : Ends w t result t') :
    ∃ printed, (report w).run t = (⟨printed, ending? result⟩, t') := by
  obtain ⟨printed, h⟩ := h []
  refine ⟨printed, ?_⟩
  rw [Work.report, StateT.run_bind, h]
  cases result <;> rfl

/-- Work whose report has exit code zero came to its end, in one of the ways in which it does. -/
theorem EndsIn.of_exitCode {w : Work (StateM FileTable) Unit}
    {S : Except Ending Unit → FileTable → Prop} (h : EndsIn w t S) {r : Report}
    (hrun : (report w).run t = (r, t')) (hexit : r.exitCode = 0) : S (.ok ()) t' := by
  obtain ⟨result, t'', hends, hS⟩ := h
  obtain ⟨printed, hreport⟩ := hends.report
  obtain ⟨rfl, rfl⟩ := Prod.mk.inj (hreport.symm.trans hrun)
  cases result with
  | ok _ => exact hS
  | error _ => cases hexit

end Work

end FormulaGraph
