import FormulaGraph.Document
import FormulaGraph.Number.Exact
import FormulaGraph.Solver.Solve
/-!
# Refused calls

A call that returns a failure leaves the registry as it was: the same keys in the same order, the
same roots, and every field of every node, computed values included. All checks of a call come
before its first change, and a document is read and checked as a whole before it takes the place of
anything.

A `Request` is a call that can be refused. `Registry.request` gives the failure that it returns, if
it returns one. A call may also break off without returning, at a value of no use or a number that
is too long; that is no refusal, and an update that breaks off may have changed metadata before.

* `request_refused`: one refused call.
* `session_accepted`: so the refused calls of a session can be left out.
* `refused_unchanged`: both of them.
-/
namespace FormulaGraph

/-- A call that changes a registry or is refused. -/
inductive Request (α : Type) where
  | addChild (parent child : Text)
  | removeChild (parent child : Text)
  | markRoot (id : Text)
  | update (id : Text) (changes : Changes α)
  | delete (id : Text)
  | applySolution (child : Text) (solved : Solved α)
  | importDocument (doc : Json α) (check : Bool)
  | loadText (text : Text) (check : Bool)

/-- The failure that a call returns. -/
def refusal? {β : Type} : Except Failure β → Option Failure
  | .ok _ => none
  | .error f => some f

/-- The failure that an update returns. -/
def UpdateError.refusal? : UpdateError → Option Failure
  | .rejected f => some f
  | .unusable _ => none

/-- The failure that the load of a text returns. -/
def LoadError.refusal? : LoadError → Option Failure
  | .rejected f => some f
  | .numberTooLong _ | .notUtf8 => none

namespace Registry

variable {α : Type} [Scalar α]

/-- What a call returns as its failure, if it is refused, and the registry after it. -/
def request (r : Registry α) : Request α → Option Failure × Registry α
  | .addChild parent child => (r.addChild parent child).map refusal? id
  | .removeChild parent child => (r.removeChild parent child).map refusal? id
  | .markRoot node => (r.markRoot node).map refusal? id
  | .update node changes =>
    (r.update node changes).map (fun
      | .ok _ => none
      | .error e => e.refusal?) id
  | .delete node => (r.delete node).map refusal? id
  | .applySolution child solved => (r.applySolution child solved).map refusal? id
  | .importDocument doc check => (r.importDocument doc check).map refusal? id
  | .loadText text check =>
    (r.loadText text check).map (fun
      | .ok () => none
      | .error e => e.refusal?) id

/-! ## Call by call -/

omit [Scalar α] in
theorem markRoot_of_error {r : Registry α} {id : Text} {f : Failure}
    (h : (r.markRoot id).1 = .error f) : (r.markRoot id).2 = r := by
  unfold markRoot at h ⊢
  split
  · rfl
  · rename_i hexists
    rw [if_neg hexists] at h
    split at h <;> cases h

theorem addChild_of_error {r : Registry α} {parent child : Text} {f : Failure}
    (h : (r.addChild parent child).1 = .error f) : (r.addChild parent child).2 = r := by
  unfold addChild at h ⊢
  cases hboth : r.both parent child with
  | error e => rfl
  | ok nodes =>
    simp only [hboth] at h ⊢
    split
    · rfl
    · rename_i hformula
      rw [if_neg hformula] at h
      split at h <;> cases h

theorem removeChild_of_error {r : Registry α} {parent child : Text} {f : Failure}
    (h : (r.removeChild parent child).1 = .error f) : (r.removeChild parent child).2 = r := by
  unfold removeChild at h ⊢
  cases hboth : r.both parent child with
  | error e => rfl
  | ok nodes =>
    simp only [hboth] at h ⊢
    split
    · rfl
    · rename_i hlisted
      rw [if_neg hlisted] at h
      split at h <;> cases h

/-- Where the metadata are changed, nothing is left that could be refused. -/
theorem update_of_rejected {r : Registry α} {id : Text} {c : Changes α} {f : Failure}
    (h : (r.update id c).1 = .error (.rejected f)) : (r.update id c).2 = r := by
  unfold update at h ⊢
  cases hn : r.node? id with
  | none => rfl
  | some n =>
    cases hrejection : c.rejection? n with
    | some g => simp only [hrejection]
    | none =>
      simp only [hn, hrejection] at h
      exfalso
      cases hkind : n.kind with
      | factor =>
        simp only [hkind, updateFactor] at h
        split at h
        · cases h
        · split at h <;> cases h
      | formula =>
        simp only [hkind, updateFormula] at h
        split at h
        · split at h <;> cases h
        · split at h <;> cases h

theorem delete_of_error {r : Registry α} {id : Text} {f : Failure}
    (h : (r.delete id).1 = .error f) : (r.delete id).2 = r := by
  unfold delete at h ⊢
  cases hn : r.node? id with
  | none => rfl
  | some n =>
    simp only [hn] at h
    cases h

theorem applySolution_of_error {r : Registry α} {child : Text} {solved : Solved α} {f : Failure}
    (h : (r.applySolution child solved).1 = .error f) :
    (r.applySolution child solved).2 = r := by
  unfold applySolution at h ⊢
  cases hout : solved.outcome with
  | error e => rfl
  | ok v =>
    cases hn : r.node? child with
    | none => rfl
    | some n =>
      simp only [hout, hn] at h ⊢
      split
      · rfl
      · rename_i hfactor
        rw [if_neg hfactor] at h
        cases h

theorem importDocument_of_error {r : Registry α} {doc : Json α} {check : Bool} {f : Failure}
    (h : (r.importDocument doc check).1 = .error f) : (r.importDocument doc check).2 = r := by
  unfold importDocument at h ⊢
  cases hread : Document.read doc with
  | error e => rfl
  | ok imported =>
    simp only [hread] at h ⊢
    split
    · rfl
    · rename_i haccepted
      rw [if_neg haccepted] at h
      cases h

/-- A text that is not loaded changes nothing, for whatever reason it is not. -/
theorem loadText_of_error {r : Registry α} {text : Text} {check : Bool} {e : LoadError}
    (h : (r.loadText text check).1 = .error e) : (r.loadText text check).2 = r := by
  unfold loadText at h ⊢
  split
  · rfl
  · rfl
  · rename_i doc hread
    cases himport : r.importDocument doc check with
    | mk result r' =>
      cases result with
      | ok u =>
        simp only [hread, himport] at h
        cases h
      | error f =>
        have hsame := importDocument_of_error (congrArg Prod.fst himport)
        rw [himport] at hsame
        exact hsame

/-! ## Sessions -/

theorem request_refused {r : Registry α} {q : Request α} {f : Failure}
    (h : (r.request q).1 = some f) : (r.request q).2 = r := by
  have herror : ∀ {β : Type} {result : Except Failure β}, refusal? result = some f →
      result = .error f := by
    intro β result hresult
    cases result with
    | ok v => cases hresult
    | error g => rw [Option.some.inj hresult]
  cases q with
  | addChild parent child => exact addChild_of_error (herror h)
  | removeChild parent child => exact removeChild_of_error (herror h)
  | markRoot id => exact markRoot_of_error (herror h)
  | delete id => exact delete_of_error (herror h)
  | applySolution child solved => exact applySolution_of_error (herror h)
  | importDocument doc check => exact importDocument_of_error (herror h)
  | update id changes =>
    refine update_of_rejected (f := f) ?_
    simp only [request, Prod.map_fst] at h
    split at h
    · cases h
    · rename_i e he
      cases e with
      | rejected g => rw [he, Option.some.inj h]
      | unusable why => cases h
  | loadText text check =>
    simp only [request, Prod.map_fst] at h
    split at h
    · cases h
    · rename_i e he
      exact loadText_of_error he

/-- The registry after one call after the other. -/
def session (r : Registry α) (requests : List (Request α)) : Registry α :=
  requests.foldl (fun r q => (r.request q).2) r

/-- The calls that are not refused when their turn comes. -/
def accepted : Registry α → List (Request α) → List (Request α)
  | _, [] => []
  | r, q :: rest =>
    match r.request q with
    | (some _, _) => accepted r rest
    | (none, r') => q :: accepted r' rest

theorem accepted_of_none {r : Registry α} {q : Request α} {rest : List (Request α)}
    (h : (r.request q).1 = none) :
    r.accepted (q :: rest) = q :: (r.request q).2.accepted rest := by
  rw [accepted]
  split
  · rename_i hq
    rw [hq] at h
    cases h
  · rename_i hq
    rw [hq]

theorem accepted_of_refused {r : Registry α} {q : Request α} {rest : List (Request α)}
    {f : Failure} (h : (r.request q).1 = some f) :
    r.accepted (q :: rest) = r.accepted rest := by
  rw [accepted]
  split
  · rfl
  · rename_i hq
    rw [hq] at h
    cases h

theorem session_accepted (r : Registry α) (requests : List (Request α)) :
    r.session (r.accepted requests) = r.session requests := by
  induction requests generalizing r with
  | nil => rfl
  | cons q rest ih =>
    have hstep : ∀ calls, r.session (q :: calls) = (r.request q).2.session calls := fun _ => rfl
    cases hq : (r.request q).1 with
    | none => rw [accepted_of_none hq, hstep, hstep, ih]
    | some f => rw [accepted_of_refused hq, hstep, request_refused hq, ih]

/-- **Refused calls.** A call that returns a failure leaves the registry exactly as it was, and so a
session ends in the same registry without the calls that are refused in it. -/
theorem refused_unchanged (r : Registry α) :
    (∀ q f, (r.request q).1 = some f → (r.request q).2 = r) ∧
    ∀ requests, r.session (r.accepted requests) = r.session requests :=
  ⟨fun _ _ => request_refused, r.session_accepted⟩

/-- A formula over a factor; both have values from earlier. -/
def halved : Registry Exact where
  nodes := .ofList
    [("a", ⟨"a", "a", .factor (.value 8), [], ["h"], some (.value 6), .null, .null⟩),
     ("h", ⟨"h", "h", .formula (some "a / 2"), [.text "a"], [], some (.value 3), .null, .null⟩)]
  roots := ["h"]

/-- A value for the formula is refused together with its new name. The document is refused for its
cycle, after it was read; the text for its end. Between them the factor gets a value. -/
theorem refused_unchanged_halved :
    let rename : Request Exact :=
      .update "h" { Changes.empty with name := some "x", value := some (.int 1) }
    let loop : Request Exact := .importDocument (.object [
      ("nodes", .list [.list [.text "a", .object [
        ("id", .text "a"), ("name", .text "a"), ("childIds", .list [.text "a"]),
        ("parentIds", .list [.text "a"]), ("kind", .text "formula")]]]),
      ("rootNodeIds", .list [])]) true
    let assign : Request Exact := .update "a" { Changes.empty with value := some (.int 2) }
    (halved.request rename).1 = some (.formulaValue "h") ∧ (halved.request rename).2 = halved ∧
    (halved.request loop).1 = some (.inconsistent [.cycle ["a", "a"]]) ∧
    (halved.request loop).2 = halved ∧
    halved.session [assign] = halved.session [rename, assign, loop, .loadText "\x7b" false] := by
  intro rename loop assign
  obtain ⟨hone, hall⟩ := refused_unchanged halved
  have hrename : (halved.request rename).1 = some (.formulaValue "h") := by decide +kernel
  have hloop : (halved.request loop).1 = some (.inconsistent [.cycle ["a", "a"]]) := by
    decide +kernel
  have haccepted :
      halved.accepted [rename, assign, loop, .loadText "\x7b" false] = [assign] := by
    have hassign : (halved.request assign).1 = none := by decide +kernel
    have hloop' : ((halved.request assign).2.request loop).1 =
        some (.inconsistent [.cycle ["a", "a"]]) := by decide +kernel
    have htext : ((halved.request assign).2.request (.loadText "\x7b" false)).1.isSome := by
      decide +kernel
    obtain ⟨f, hf⟩ := Option.isSome_iff_exists.mp htext
    rw [accepted_of_refused hrename, accepted_of_none hassign, accepted_of_refused hloop',
      accepted_of_refused hf, accepted]
  refine ⟨hrename, hone _ _ hrename, hloop, hone _ _ hloop, ?_⟩
  rw [← haccepted]
  exact hall _

end Registry

end FormulaGraph
