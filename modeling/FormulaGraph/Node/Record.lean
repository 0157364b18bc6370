import FormulaGraph.Json.Plain
import FormulaGraph.Node.Basic
/-!
# Node records

A record is the object that stands for a node in a document. `Node.record` writes it, fields without
a value left out, and `Node.ofRecord` reads it.

**Writing.** A number of the node itself, its value or its computed value, is written whatever it
is. An annotation and the entries of the children are written plain (`Json.plain`). An annotation
that becomes nothing by that is there all the same. Where a value cannot be plain there is no
record.

**Reading** collects every issue in the order of the fields. A field is found under its record name
(`childIds`) or else under its plain name (`child_ids`), and an issue names the one that was read.
Numbers may be given as numbers, truth values or texts. That a factor has no children is checked
last, when there is no other issue. The report of that issue holds the name of the factor; a name
that no file can hold leaves no report (`RecordError`).

**Drafts** are the fields of a node that is about to be created, by their plain names. They obey the
same rules.
-/
namespace FormulaGraph

/-- The fields of a record besides its kind. -/
inductive Field where
  | id | name | children | computed | parents | description | unit | value | expression
  deriving DecidableEq, Repr

namespace Field

/-- The name in records. -/
def recordName : Field → String
  | .id => "id"
  | .name => "name"
  | .children => "childIds"
  | .computed => "computedValue"
  | .parents => "parentIds"
  | .description => "description"
  | .unit => "unit"
  | .value => "value"
  | .expression => "expression"

/-- The name in drafts, which records may use too. -/
def plainName : Field → String
  | .children => "child_ids"
  | .computed => "computed_value"
  | .parents => "parent_ids"
  | f => f.recordName

end Field

/-- A step on the way from a record to the place of an issue. -/
inductive Step where
  | field (name : String)
  | item (index : Nat)
  deriving DecidableEq, Repr

/-- What is wrong at a place. -/
inductive IssueKind where
  | missing
  | notText
  | notAList
  | notANumber
  | unreadableNumber
  | brokenText
  | factorWithChildren
  | noKind
  | unknownKind
  | notAnObject
  deriving DecidableEq, Repr

/-- The code by which reports name an issue. -/
def IssueKind.code : IssueKind → String
  | .missing => "missing"
  | .notText => "string_type"
  | .notAList => "list_type"
  | .notANumber => "float_type"
  | .unreadableNumber => "float_parsing"
  | .brokenText => "string_unicode"
  | .factorWithChildren => "value_error"
  | .noKind => "union_tag_not_found"
  | .unknownKind => "union_tag_invalid"
  | .notAnObject => "model_attributes_type"

/-- One reason why a record is no node. -/
structure Issue where
  place : List Step
  kind : IssueKind
  deriving DecidableEq, Repr

/-- Why a record is no node. -/
inductive RecordError where
  | invalid (issues : List Issue)
  /-- A factor has children, and its name keeps that from being reported. -/
  | unreportable (e : Text.EncodeFault)
  deriving DecidableEq, Repr

/-- A value, or all issues that were found on the way to it. -/
inductive Checked (β : Type) where
  | valid (value : β)
  | invalid (issues : List Issue)

namespace Checked

variable {β γ : Type}

def issues : Checked β → List Issue
  | .valid _ => []
  | .invalid is => is

/-- Applies a function to an argument; issues of the function come first. -/
def apply : Checked (β → γ) → Checked β → Checked γ
  | .valid f, .valid x => .valid (f x)
  | f, x => .invalid (f.issues ++ x.issues)

instance : Applicative Checked where
  pure := .valid
  seq f x := apply f (x ())

end Checked

namespace Node

variable {α : Type}

/-! ## Writing -/

/-- A field, if its value is not nothing. -/
def present (f : Field) : Json α → List (Text × Json α)
  | .null => []
  | v => [(f.recordName, v)]

/-- The field of an annotation, if that is not nothing. -/
def annotationField [Scalar α] (f : Field) (v : Json α) :
    Except Text.EncodeFault (List (Text × Json α)) :=
  match v with
  | .null => .ok []
  | v => v.plain.map fun v => [(f.recordName, v)]

theorem annotationField_ofText? [Scalar α] (f : Field) (s : Option Text) :
    annotationField f (.ofText? s : Json α) = .ok (present f (.ofText? s)) := by
  cases s <;> simp [annotationField, Json.ofText?, Json.plain, present, Except.map]

def number? : Option α → Json α
  | none => .null
  | some x => .real x

/-- The field that tells a factor from a formula by its contents. -/
def bodyField (n : Node α) : List (Text × Json α) :=
  match n.body with
  | .factor v => present .value (.real v)
  | .formula e => present .expression (.ofText? e)

/-- The record of a node with the given fields for its name and its body. -/
def recordWith [Scalar α] (n : Node α)
    (name body : Except Text.EncodeFault (List (Text × Json α))) :
    Except Text.EncodeFault (Json α) := do
  let always (f : Field) (v : Json α) : List (Text × Json α) := [(f.recordName, v)]
  let kind : List (Text × Json α) := [("kind", .text n.kind.text)]
  let name ← name
  let children ← Json.plainItems n.listed
  let description ← annotationField .description n.description
  let unit ← annotationField .unit n.unit
  let body ← body
  pure (.object (always .id (.text n.id) ++ name ++ always .children (.list children) ++
    present .computed (number? n.computed) ++ always .parents (.list (n.parents.map .text)) ++
    description ++ unit ++ kind ++ body))

/-- The field of the name. -/
def nameField (n : Node α) : List (Text × Json α) := present .name (.text n.name)

/-- The record of a node. -/
def record [Scalar α] (n : Node α) : Except Text.EncodeFault (Json α) :=
  n.recordWith (.ok n.nameField) (.ok n.bodyField)

/-! ## Reading -/

/-- Where fields are read from: the name under which a field is looked up, and its value. -/
structure Source (α : Type) where
  path : List Step
  find : Field → String × Option (Json α)

namespace Source

/-- The fields of a record of a known kind. -/
def ofRecord (kind : NodeKind) (fields : List (Text × Json α)) : Source α :=
  ⟨[.field kind.text], fun f =>
    match Json.field? f.recordName fields with
    | some v => (f.recordName, some v)
    | none => (f.plainName, Json.field? f.plainName fields)⟩

/-- The given fields of a draft. -/
def ofDraft (given : List (Field × Json α)) : Source α :=
  ⟨[], fun f => (f.plainName, (given.find? fun g => g.1 = f).map (·.2))⟩

variable (s : Source α)

/-- The place of a field. -/
def place (f : Field) : List Step := s.path ++ [.field (s.find f).1]

def refuse {β : Type} (f : Field) (kind : IssueKind) : Checked β := .invalid [⟨s.place f, kind⟩]

/-- A text that has to be there. -/
def text (f : Field) : Checked Text :=
  match (s.find f).2 with
  | none => s.refuse f .missing
  | some (.text t) => .valid t
  | some _ => s.refuse f .notText

/-- A text or nothing. -/
def text? (f : Field) : Checked (Option Text) :=
  match (s.find f).2 with
  | none | some .null => .valid none
  | some (.text t) => .valid (some t)
  | some _ => s.refuse f .notText

/-- The issues of list items from `index` on that are no texts. -/
def itemIssues (f : Field) (index : Nat) : List (Json α) → List Issue
  | [] => []
  | .text _ :: rest => itemIssues f (index + 1) rest
  | _ :: rest => ⟨s.place f ++ [.item index], .notText⟩ :: itemIssues f (index + 1) rest

/-- A list of texts, empty when it is not given. -/
def texts (f : Field) : Checked (List Text) :=
  match (s.find f).2 with
  | none => .valid []
  | some (.list items) =>
    match s.itemIssues f 0 items with
    | [] => .valid (items.filterMap Json.text?)
    | issues => .invalid issues
  | some _ => s.refuse f .notAList

variable [Scalar α]

/-- A number as a number, a truth value or a text. A whole number too large for a scalar is none. -/
def toNumber : Json α → Except IssueKind α
  | .real x => .ok x
  | .int i =>
    let x : α := Scalar.ofInt i
    if Scalar.isFinite x then .ok x else .error .notANumber
  | .bool b => .ok (if b then Scalar.one else Scalar.zero)
  | .text t =>
    match Numeral.recorded? t with
    | some n => .ok n.value
    | none => .error (if t.chars?.isNone then .brokenText else .unreadableNumber)
  | _ => .error .notANumber

/-- A number, `ifAbsent` when it is not given. -/
def number (f : Field) (ifAbsent : α) : Checked α :=
  match (s.find f).2 with
  | none => .valid ifAbsent
  | some v =>
    match toNumber v with
    | .ok x => .valid x
    | .error kind => s.refuse f kind

/-- A number or nothing. -/
def number? (f : Field) : Checked (Option α) :=
  match (s.find f).2 with
  | none | some .null => .valid none
  | some _ => some <$> s.number f Scalar.zero

def body : NodeKind → Checked (Body α)
  | .factor => Body.factor <$> s.number .value Scalar.zero
  | .formula => Body.formula <$> s.text? .expression

/-- The refusal of children of a factor. -/
def refuseChildren (name : Text) : RecordError :=
  match (childrenRefusal name).encode with
  | .ok _ => .invalid [⟨s.path, .factorWithChildren⟩]
  | .error e => .unreportable e

/-- The node with the fields of a source. -/
def node (kind : NodeKind) : Except RecordError (Node α) :=
  let make id name children computed parents description unit body : Node α :=
    { id, name, body, listed := List.map .text children, parents, computed,
      description := .ofText? description, unit := .ofText? unit }
  let checked := make <$> s.text .id <*> s.text .name <*> s.texts .children <*>
    s.number? .computed <*> s.texts .parents <*> s.text? .description <*> s.text? .unit <*>
    s.body kind
  match checked with
  | .valid n =>
    if n.isFactor ∧ !n.listed.isEmpty then .error (s.refuseChildren n.name) else .ok n
  | .invalid issues => .error (.invalid issues)

end Source

variable [Scalar α]

/-- Reads a record. -/
def ofRecord (record : Json α) : Except RecordError (Node α) :=
  match record with
  | .object fields =>
    match Json.field? "kind" fields with
    | none => .error (.invalid [⟨[], .noKind⟩])
    | some kind =>
      if kind.text? = some "factor" then (Source.ofRecord .factor fields).node .factor
      else if kind.text? = some "formula" then (Source.ofRecord .formula fields).node .formula
      else .error (.invalid [⟨[], .unknownKind⟩])
  | _ => .error (.invalid [⟨[], .notAnObject⟩])

end Node

end FormulaGraph
