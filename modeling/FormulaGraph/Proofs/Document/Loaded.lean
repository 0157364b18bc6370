import FormulaGraph.Proofs.Document.Entries
import FormulaGraph.Proofs.Document.Reload
import FormulaGraph.Proofs.Json.Lines
import FormulaGraph.Proofs.Registry.Assigned
/-!
# Registries that were loaded

A loaded registry can be saved again. Every node of it was read from a record, and neither an
evaluation nor a new value of a factor touches what a record could be refused for.

* `recordable_of_loadBytes`: what is loaded from a file.
* `Recordable.evaluateEach`, `Recordable.assign`: what is made of it.
* `loadBytes_fileText`: the file that it is saved in.
-/
namespace FormulaGraph

variable {α : Type}

/-- What decides whether a node can be written. -/
def Node.form (n : Node α) : NodeKind × List (Json α) × Json α × Json α :=
  (n.kind, n.listed, n.description, n.unit)

theorem Node.Recordable.of_form_eq {n m : Node α} (hn : n.Recordable) (h : n.form = m.form) :
    m.Recordable := by
  simp only [Node.form, Prod.mk.injEq] at h
  obtain ⟨hkind, hlisted, hdescription, hunit⟩ := h
  exact ⟨hlisted ▸ hn.listed, hdescription ▸ hn.description, hunit ▸ hn.unit, fun hfactor =>
    hlisted ▸ hn.factor (by rwa [Node.isFactor, hkind])⟩

theorem Node.form_eq_of_unevaluated_eq {n m : Node α} (h : n.unevaluated = m.unevaluated) :
    n.form = m.form := by
  cases n
  cases m
  cases h
  rfl

namespace Registry

theorem Recordable.of_agreeOn {r r' : Registry α} (hr : r.Recordable)
    (h : AgreeOn Node.form r r') : r'.Recordable := by
  intro id n' hn'
  obtain ⟨n, hn, hform⟩ := h.node? hn'
  exact (hr id n hn).of_form_eq hform

theorem Recordable.assign {r : Registry α} (hr : r.Recordable) {id : Text} {n : Node α}
    (hn : r.node? id = some n) (hfactor : n.isFactor = true) (v : α) :
    (r.assign id v).Recordable := by
  refine hr.of_agreeOn (agreeOn_modify fun m hm => ?_)
  obtain rfl := Option.some.inj (hn.symm.trans hm)
  rw [Node.form, Node.form, Node.isFactor_iff.1 hfactor]
  rfl

variable [Scalar α]

theorem Recordable.evaluate {r : Registry α} (hr : r.Recordable) (id : Text) :
    (r.evaluate id).2.Recordable :=
  hr.of_agreeOn ((agreeOn_evaluate r id).mono fun _ _ => Node.form_eq_of_unevaluated_eq)

theorem Recordable.evaluateEach {r : Registry α} (hr : r.Recordable) (ids : List Text) :
    (r.evaluateEach ids).2.Recordable :=
  hr.of_agreeOn ((agreeOn_evaluateEach r ids).mono fun _ _ => Node.form_eq_of_unevaluated_eq)

theorem recordable_of_read {doc : Json α} {r : Registry α} (h : Document.read doc = .ok r) :
    r.Recordable := by
  obtain ⟨es, ks, -, -, hgives, hnodes⟩ := Document.read_eq_ok h
  intro id n hn
  rw [node?, hnodes] at hn
  obtain ⟨e, -, -, -, hrecordable⟩ :=
    Document.exists_mem_of_forall₂ hgives.flip (OrderedMap.mem_of_get?_ofList hn)
  exact hrecordable

theorem recordable_of_importDocument {s r : Registry α} {doc : Json α} {check : Bool}
    (h : s.importDocument doc check = (.ok (), r)) : r.Recordable := by
  obtain ⟨imported, hread, -, rfl⟩ := importDocument_eq_ok h
  exact (recordable_of_read hread).evaluateEach _

/-- What is loaded is a document that is imported. -/
theorem loadText_eq_ok {s r : Registry α} {text : Text} {check : Bool}
    (h : s.loadText text check = (.ok (), r)) :
    ∃ doc, s.importDocument doc check = (.ok (), r) := by
  unfold loadText at h
  split at h
  · cases h
  · cases h
  · rename_i doc _
    split at h
    · rename_i himport
      cases h
      exact ⟨doc, himport⟩
    · cases h

theorem recordable_of_loadBytes {s r : Registry α} {bytes : ByteArray} {check : Bool}
    (h : s.loadBytes bytes check = (.ok (), r)) : r.Recordable := by
  unfold loadBytes at h
  split at h
  · cases h
  · obtain ⟨doc, himport⟩ := loadText_eq_ok h
    exact recordable_of_importDocument himport

/-- **Load after save, by way of a file.** -/
theorem loadBytes_fileText {r : Registry Float} (hr : r.Recordable) (exportDate : Text)
    (hjson : ∀ doc, r.document exportDate = .ok doc →
      Json.read (.ofString (doc.toText (some 2) ++ "\n")) = .ok doc) :
    ∃ text, r.fileText exportDate = .ok text ∧
      ∀ s : Registry Float, s.loadBytes text.toUTF8 false = (.ok (), r.evaluateRoots.2) := by
  have hdoc := document_eq_ok hr exportDate
  refine ⟨_, by rw [fileText, documentText, hdoc]; rfl, fun s => ?_⟩
  rw [loadBytes_toUTF8 (Json.clean_line _ _)]
  exact loadText_of_read hr hdoc (hjson _ hdoc) s

end Registry

end FormulaGraph
