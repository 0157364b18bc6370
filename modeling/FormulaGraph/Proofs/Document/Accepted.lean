import FormulaGraph.Proofs.Document.Records
import FormulaGraph.Proofs.Except
/-!
# What an accepted record says

A record can say more, less and other things than the record that is written for its node: it may
have further fields, leave out lists that are empty, use plain names, and give numbers as texts. Of
what it is read for, nothing is lost all the same. Each field of the node is what the record has
there, or the default of the field where it has nothing.

* `Matches`: the node that a record stands for, field by field.
* `ofRecord_eq_ok`: an accepted record stands for the node that was read, and that node can be
  written.
-/
namespace FormulaGraph

/-! ## Collecting -/

namespace Checked

variable {β γ : Type}

theorem seq_eq_valid {f : Checked (β → γ)} {x : Checked β} {y : γ} (h : f <*> x = .valid y) :
    ∃ g a, f = .valid g ∧ x = .valid a ∧ g a = y := by
  change apply f x = .valid y at h
  cases f with
  | valid g =>
    cases x with
    | valid a => exact ⟨g, a, rfl, rfl, Checked.valid.inj h⟩
    | invalid is => cases h
  | invalid is => cases x <;> cases h

theorem map_eq_valid {f : β → γ} {x : Checked β} {y : γ} (h : f <$> x = .valid y) :
    ∃ a, x = .valid a ∧ f a = y := by
  obtain ⟨g, a, hg, ha, hy⟩ := seq_eq_valid (f := .valid f) h
  cases hg
  exact ⟨a, ha, hy⟩

end Checked

namespace Node

variable {α : Type}

/-- What a record has in a field, under its name in records or else under its plain name. -/
def recorded (f : Field) (fields : List (Text × Json α)) : Option (Json α) :=
  (Json.field? f.recordName fields).or (Json.field? f.plainName fields)

theorem find_ofRecord (kind : NodeKind) (fields : List (Text × Json α)) (f : Field) :
    ((Source.ofRecord kind fields).find f).2 = recorded f fields := by
  unfold Source.ofRecord recorded
  dsimp only
  cases Json.field? (f.recordName : Text) fields <;> rfl

/-! ## Field by field -/

section

variable {s : Source α} {f : Field}

theorem find_of_text {t : Text} (h : s.text f = .valid t) : (s.find f).2 = some (.text t) := by
  unfold Source.text at h
  split at h
  · cases h
  · rename_i found
    cases h
    exact found
  · cases h

theorem find_of_text? {t : Option Text} (h : s.text? f = .valid t) :
    (s.find f).2.getD .null = .ofText? t := by
  unfold Source.text? at h
  split at h
  · rename_i found
    cases h
    rw [found]
    rfl
  · rename_i found
    cases h
    rw [found]
    rfl
  · rename_i found
    cases h
    rw [found]
    rfl
  · cases h

theorem allTexts_of_itemIssues {index : Nat} {items : List (Json α)}
    (h : s.itemIssues f index items = []) : Json.AllTexts items := by
  induction items generalizing index with
  | nil => exact fun v hv => nomatch hv
  | cons item items ih =>
    cases item with
    | text t =>
      intro v hv
      rcases List.mem_cons.1 hv with rfl | hv
      · exact ⟨t, rfl⟩
      · exact ih h v hv
    | _ => cases h

theorem find_of_texts {ts : List Text} (h : s.texts f = .valid ts) :
    (s.find f).2.getD (.list []) = .list (ts.map .text) := by
  unfold Source.texts at h
  split at h
  · rename_i found
    cases h
    rw [found]
    rfl
  · rename_i items found
    split at h
    · rename_i hissues
      cases h
      rw [found]
      exact congrArg Json.list (allTexts_of_itemIssues hissues).eq_map_text
    · cases h
  · cases h

variable [Scalar α]

theorem find_of_number {x y : α} (h : s.number f y = .valid x) :
    Source.toNumber ((s.find f).2.getD (.real y)) = .ok x := by
  unfold Source.number at h
  split at h
  · rename_i found
    cases h
    rw [found]
    rfl
  · rename_i v found
    split at h
    · rename_i hx
      cases h
      rw [found]
      exact hx
    · cases h

end

/-! ## A whole record -/

variable [Scalar α]

/-- The body that the fields of a record give. -/
def BodyMatches (fields : List (Text × Json α)) : Body α → Prop
  | .factor v => Source.toNumber ((recorded .value fields).getD (.real Scalar.zero)) = .ok v
  | .formula e => (recorded .expression fields).getD .null = .ofText? e

/-- The fields of a record give a node, up to its computed value. -/
structure Matches (n : Node α) (fields : List (Text × Json α)) : Prop where
  kind : Json.field? "kind" fields = some (.text n.kind.text)
  id : recorded .id fields = some (.text n.id)
  name : recorded .name fields = some (.text n.name)
  children : (recorded .children fields).getD (.list []) = .list n.listed
  parents : (recorded .parents fields).getD (.list []) = .list (n.parents.map .text)
  body : BodyMatches fields n.body
  description : (recorded .description fields).getD .null = n.description
  unit : (recorded .unit fields).getD .null = n.unit

theorem kind_of_body {s : Source α} {kind : NodeKind} {b : Body α} (h : s.body kind = .valid b)
    {n : Node α} (hn : n.body = b) : n.kind = kind := by
  cases kind with
  | factor =>
    obtain ⟨v, -, rfl⟩ := Checked.map_eq_valid h
    rw [Node.kind, hn]
  | formula =>
    obtain ⟨e, -, rfl⟩ := Checked.map_eq_valid h
    rw [Node.kind, hn]

theorem bodyMatches_of_body {kind : NodeKind} {fields : List (Text × Json α)} {b : Body α}
    (h : (Source.ofRecord kind fields).body kind = .valid b) : BodyMatches fields b := by
  cases kind with
  | factor =>
    obtain ⟨v, hv, rfl⟩ := Checked.map_eq_valid h
    have hfound := find_of_number hv
    rwa [find_ofRecord] at hfound
  | formula =>
    obtain ⟨e, he, rfl⟩ := Checked.map_eq_valid h
    have hfound := find_of_text? he
    rwa [find_ofRecord] at hfound

theorem node_eq_ok (kind : NodeKind) {fields : List (Text × Json α)} {n : Node α}
    (hkind : Json.field? "kind" fields = some (.text kind.text))
    (h : (Source.ofRecord kind fields).node kind = .ok n) : n.Matches fields ∧ n.Recordable := by
  unfold Source.node at h
  extract_lets make checked at h
  generalize hchecked : checked = result at h
  cases result with
  | invalid issues => cases h
  | valid m =>
    dsimp only at h
    split at h
    · cases h
    · rename_i hfactor
      cases h
      obtain ⟨_, body, h₇, hbody, rfl⟩ := Checked.seq_eq_valid hchecked
      obtain ⟨_, unit, h₆, hunit, rfl⟩ := Checked.seq_eq_valid h₇
      obtain ⟨_, description, h₅, hdescription, rfl⟩ := Checked.seq_eq_valid h₆
      obtain ⟨_, parents, h₄, hparents, rfl⟩ := Checked.seq_eq_valid h₅
      obtain ⟨_, computed, h₃, -, rfl⟩ := Checked.seq_eq_valid h₄
      obtain ⟨_, children, h₂, hchildren, rfl⟩ := Checked.seq_eq_valid h₃
      obtain ⟨_, name, h₁, hname, rfl⟩ := Checked.seq_eq_valid h₂
      obtain ⟨id, hid, rfl⟩ := Checked.map_eq_valid h₁
      have hid := find_of_text hid
      have hname := find_of_text hname
      have hchildren := find_of_texts hchildren
      have hparents := find_of_texts hparents
      have hdescription := find_of_text? hdescription
      have hunit := find_of_text? hunit
      rw [find_ofRecord] at hid hname hchildren hparents hdescription hunit
      refine ⟨?_, ?_⟩
      · exact {
          kind := by rw [hkind, kind_of_body hbody rfl]
          id := hid
          name := hname
          children := hchildren
          parents := hparents
          body := bodyMatches_of_body hbody
          description := hdescription
          unit := hunit }
      · refine ⟨Json.allTexts_map_text children, ⟨description, rfl⟩, ⟨unit, rfl⟩, fun h => ?_⟩
        by_contra hlisted
        exact hfactor ⟨h, by simpa using hlisted⟩

/-- **A record that is accepted gives the node that was read.** -/
theorem ofRecord_eq_ok {record : Json α} {n : Node α} (h : ofRecord record = .ok n) :
    ∃ fields, record = .object fields ∧ n.Matches fields ∧ n.Recordable := by
  unfold ofRecord at h
  split at h
  · rename_i fields
    refine ⟨fields, rfl, ?_⟩
    split at h
    · cases h
    · rename_i kind hkind
      have htext : ∀ t, kind.text? = some t → Json.field? "kind" fields = some (.text t) := by
        intro t ht
        rw [hkind]
        cases kind with
        | text u => rw [show u = t from Option.some.inj ht]
        | _ => cases ht
      split at h
      · rename_i hfactor
        exact node_eq_ok .factor (htext _ hfactor) h
      · split at h
        · rename_i hformula
          exact node_eq_ok .formula (htext _ hformula) h
        · cases h
  · cases h

end Node

end FormulaGraph
