import FormulaGraph.Proofs.Registry.Typed
import FormulaGraph.Document
/-!
# Records read back

A record leaves out the fields that hold nothing, so what a reader finds under the name of a field
is the value of the field, or no entry where that is nothing (`find_recordFields`); and a field that
is not there is read as nothing. Nothing else can be lost: all names of fields are different.

* `ofRecord_record`: the record of a node is read as that node, when all its fields have the types
  that records give them (`Node.Recordable`).
-/
namespace FormulaGraph

/-! ## Fields of an object -/

theorem Text.ofString_inj {s t : String} : Text.ofString s = Text.ofString t ↔ s = t := by
  constructor
  · intro h
    have hchars : s.toList.map CodePoint.char = t.toList.map CodePoint.char :=
      congrArg Text.points h
    have hinj : Function.Injective CodePoint.char := fun a b hab => CodePoint.char.inj hab
    exact String.toList_inj.1 (hinj.list_map hchars)
  · exact congrArg Text.ofString

namespace Json

variable {α : Type}

/-- The value, if it is not nothing. -/
def given? : Json α → Option (Json α)
  | .null => none
  | v => some v

instance (v : Json α) : Decidable (∃ s, v = .ofText? s) :=
  match v with
  | .null => .isTrue ⟨none, rfl⟩
  | .text s => .isTrue ⟨some s, rfl⟩
  | .bool _ | .int _ | .real _ | .list _ | .object _ =>
    .isFalse fun ⟨s, h⟩ => by cases s <;> cases h

theorem field?_append (name : Text) (xs ys : List (Text × Json α)) :
    field? name (xs ++ ys) = (field? name xs).or (field? name ys) := by
  induction xs with
  | nil => simp [field?]
  | cons e rest ih =>
    by_cases h : e.1 = name
    · simp [field?, h]
    · simpa [field?, h] using ih

theorem field?_present (name : Text) (f : Field) (v : Json α) :
    field? name (Node.present f v) = if (f.recordName : Text) = name then v.given? else none := by
  cases v <;> simp [Node.present, field?, given?]

end Json

namespace Node

variable {α : Type}

/-- Every field has the type that records give it, and a factor lists nothing. -/
structure Recordable (n : Node α) : Prop where
  listed : Json.AllTexts n.listed
  description : ∃ s, n.description = .ofText? s
  unit : ∃ s, n.unit = .ofText? s
  factor : n.isFactor = true → n.listed = []

instance (n : Node α) : Decidable n.Recordable :=
  decidable_of_iff (Json.AllTexts n.listed ∧ (∃ s, n.description = .ofText? s) ∧
      (∃ s, n.unit = .ofText? s) ∧ (n.isFactor = true → n.listed = []))
    ⟨fun ⟨listed, description, unit, factor⟩ => ⟨listed, description, unit, factor⟩,
      fun h => ⟨h.listed, h.description, h.unit, h.factor⟩⟩

/-- What a node has in a field, nothing where the field is absent. -/
def fieldValue (n : Node α) : Field → Json α
  | .id => .text n.id
  | .name => .text n.name
  | .children => .list n.listed
  | .computed => number? n.computed
  | .parents => .list (n.parents.map .text)
  | .description => n.description
  | .unit => n.unit
  | .value =>
    match n.body with
    | .factor v => .real v
    | .formula _ => .null
  | .expression => .ofText? n.expression?

/-- The fields of the record of a node, in their order. -/
def recordFields (n : Node α) : List (Text × Json α) :=
  let fields (fs : List Field) : List (Text × Json α) :=
    fs.flatMap fun f => present f (n.fieldValue f)
  let kind : List (Text × Json α) := [("kind", .text n.kind.text)]
  fields [.id, .name, .children, .computed, .parents, .description, .unit] ++ kind ++
    fields [.value, .expression]

/-! ## Writing -/

theorem plainItems_of_allTexts [Scalar α] {items : List (Json α)} (h : Json.AllTexts items) :
    Json.plainItems items = .ok items := by
  rw [h.eq_map_text]
  exact Json.plainItems_map_text _

theorem bodyField_eq (n : Node α) :
    n.bodyField = present .value (n.fieldValue .value) ++
      present .expression (n.fieldValue .expression) := by
  unfold bodyField fieldValue expression?
  cases n.body with
  | factor v => rfl
  | formula e => rfl

theorem record_eq_ok [Scalar α] {n : Node α} (h : n.Recordable) :
    n.record = .ok (.object n.recordFields) := by
  obtain ⟨description, hdescription⟩ := h.description
  obtain ⟨unit, hunit⟩ := h.unit
  rw [record, recordWith, plainItems_of_allTexts h.listed, hdescription, hunit,
    annotationField_ofText?, annotationField_ofText?, bodyField_eq]
  simp [recordFields, nameField, fieldValue, hdescription, hunit, present, bind, Except.bind, pure,
    Except.pure]

/-! ## Looking up -/

theorem recordName_eq_recordName {f g : Field} (h : g.recordName = f.recordName) : g = f := by
  revert h
  cases f <;> cases g <;> decide

theorem recordName_eq_plainName {f g : Field} (h : g.recordName = f.plainName) : g = f := by
  revert h
  cases f <;> cases g <;> decide

theorem recordName_ne_kind (f : Field) : f.recordName ≠ "kind" := by
  cases f <;> decide

theorem plainName_ne_kind (f : Field) : f.plainName ≠ "kind" := by
  cases f <;> decide

/-- Under a name that no other field has, what a field holds is found. -/
theorem field?_fields {name : String} {f : Field} (hname : ∀ g : Field, g.recordName = name → g = f)
    (value : Field → Json α) (fs : List Field) :
    Json.field? (name : Text) (fs.flatMap fun g => present g (value g)) =
      if f.recordName = name ∧ f ∈ fs then (value f).given? else none := by
  induction fs with
  | nil => simp [Json.field?]
  | cons g fs ih =>
    rw [List.flatMap_cons, Json.field?_append, Json.field?_present, ih]
    simp only [Text.ofString_inj]
    by_cases hg : g.recordName = name
    · obtain rfl := hname g hg
      cases (value g).given? <;> simp [hg]
    · by_cases hgf : f = g
      · subst hgf
        simp [hg]
      · simp [hg, hgf]

theorem field?_recordFields (n : Node α) {name : String} {f : Field}
    (hname : ∀ g : Field, g.recordName = name → g = f) (hkind : name ≠ "kind") :
    Json.field? (name : Text) n.recordFields =
      if f.recordName = name then (n.fieldValue f).given? else none := by
  have hother : ¬Text.ofString "kind" = Text.ofString name := fun h =>
    hkind (Text.ofString_inj.1 h).symm
  rw [recordFields, Json.field?_append, Json.field?_append, field?_fields hname,
    field?_fields hname, Json.field?, if_neg hother, Json.field?]
  cases f <;> simp

theorem field?_kind (n : Node α) :
    Json.field? "kind" n.recordFields = some (.text n.kind.text) := by
  have hname : ∀ g : Field, g.recordName = "kind" → g = .id := fun g hg =>
    absurd hg (recordName_ne_kind g)
  rw [recordFields, Json.field?_append, Json.field?_append, field?_fields hname,
    field?_fields hname, Json.field?, if_pos rfl]
  simp [recordName_ne_kind]

/-- What a reader finds of a field is what the node has in it. -/
theorem find_recordFields (n : Node α) (kind : NodeKind) (f : Field) :
    ((Source.ofRecord kind n.recordFields).find f).2 = (n.fieldValue f).given? := by
  have hrecord := n.field?_recordFields (f := f) (fun _ => recordName_eq_recordName)
    (recordName_ne_kind f)
  have hplain := n.field?_recordFields (f := f) (fun _ => recordName_eq_plainName)
    (plainName_ne_kind f)
  rw [if_pos rfl] at hrecord
  unfold Source.ofRecord
  cases hgiven : (n.fieldValue f).given? with
  | some v => simp only [hrecord, hgiven]
  | none =>
    simp only [hrecord, hplain, hgiven]
    split <;> rfl

section

variable {s : Source α} {f : Field}

theorem text_of_find {t : Text} (h : (s.find f).2 = (Json.text t).given?) :
    s.text f = .valid t := by
  simp [Source.text, h, Json.given?]

theorem text?_of_find {t : Option Text} (h : (s.find f).2 = (Json.ofText? t).given?) :
    s.text? f = .valid t := by
  cases t <;> simp [Source.text?, h, Json.given?, Json.ofText?]

theorem itemIssues_map_text (s : Source α) (f : Field) (index : Nat) (ts : List Text) :
    s.itemIssues f index (ts.map .text) = [] := by
  induction ts generalizing index with
  | nil => rfl
  | cons t rest ih => exact ih (index + 1)

theorem texts_of_find {ts : List Text} (h : (s.find f).2 = (Json.list (ts.map .text)).given?) :
    s.texts f = .valid ts := by
  have htexts : (ts.map Json.text).filterMap Json.text? = ts := Json.textsAmong_map_text (α := α) ts
  simp [Source.texts, h, Json.given?, itemIssues_map_text, htexts]

variable [Scalar α]

theorem number_of_find {x y : α} (h : (s.find f).2 = (Json.real x).given?) :
    s.number f y = .valid x := by
  simp [Source.number, h, Json.given?, Source.toNumber]

theorem number?_of_find {x : Option α} (h : (s.find f).2 = (number? x).given?) :
    s.number? f = .valid x := by
  cases x with
  | none => simp [Source.number?, h, Json.given?, number?]
  | some x =>
    have hnumber : s.number f Scalar.zero = .valid x := number_of_find h
    simp only [Source.number?, h, Json.given?, number?, hnumber]
    rfl

end

variable [Scalar α]

theorem body_recordFields (n : Node α) :
    (Source.ofRecord n.kind n.recordFields).body n.kind = .valid n.body := by
  have hfind := n.find_recordFields n.kind
  unfold Source.body
  cases hb : n.body with
  | factor v =>
    have hkind : n.kind = .factor := by rw [kind, hb]
    have hvalue := hfind .value
    simp only [fieldValue, hb] at hvalue
    simp only [hkind] at hvalue ⊢
    rw [number_of_find hvalue]
    rfl
  | formula e =>
    have hkind : n.kind = .formula := by rw [kind, hb]
    have hexpression := hfind .expression
    simp only [fieldValue, expression?, hb] at hexpression
    simp only [hkind] at hexpression ⊢
    rw [text?_of_find hexpression]
    rfl

theorem node_recordFields {n : Node α} (h : n.Recordable) :
    (Source.ofRecord n.kind n.recordFields).node n.kind = .ok n := by
  have hfind := n.find_recordFields n.kind
  have hlisted : n.listed = n.children.map .text := h.listed.eq_map_text
  have hchildren := hfind .children
  simp only [fieldValue] at hchildren
  rw [hlisted] at hchildren
  obtain ⟨description, hdescription⟩ := h.description
  have hdescription' := hfind .description
  simp only [fieldValue, hdescription] at hdescription'
  obtain ⟨unit, hunit⟩ := h.unit
  have hunit' := hfind .unit
  simp only [fieldValue, hunit] at hunit'
  unfold Source.node
  rw [text_of_find (hfind .id), text_of_find (hfind .name), texts_of_find hchildren,
    number?_of_find (hfind .computed), texts_of_find (hfind .parents),
    text?_of_find hdescription', text?_of_find hunit', body_recordFields]
  extract_lets make checked
  have hmake : make n.id n.name n.children n.computed n.parents description unit n.body = n := by
    unfold make
    rw [← hlisted, ← hdescription, ← hunit]
  have hchecked : checked = .valid n := congrArg Checked.valid hmake
  rw [hchecked]
  dsimp only
  rw [if_neg]
  rintro ⟨hfactor, hnonempty⟩
  simp [h.factor hfactor] at hnonempty

/-- **A record is read as the node it was written for.** -/
theorem ofRecord_record {n : Node α} (h : n.Recordable) :
    ofRecord (.object n.recordFields) = .ok n := by
  have hnode := node_recordFields h
  unfold ofRecord
  simp only [field?_kind]
  cases hkind : n.kind with
  | factor =>
    rw [hkind] at hnode
    simpa [Json.text?, NodeKind.text] using hnode
  | formula =>
    rw [hkind] at hnode
    have hne : ¬(Text.ofString "formula" = Text.ofString "factor") := by
      rw [Text.ofString_inj]
      decide
    simpa [Json.text?, NodeKind.text, hne] using hnode

end Node

end FormulaGraph
