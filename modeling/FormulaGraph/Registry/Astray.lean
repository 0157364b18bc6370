import FormulaGraph.Document
import FormulaGraph.Expr.Items
/-!
# Updates with values of any type

What an update is given for a field may be any document value. A description, a unit and the entries
of a list of children are kept as they are anyway (`FormulaGraph.Node.Basic`), and the value of a
factor is converted. A name and an expression are assigned unchecked as well. A name that is no text
and an expression that is neither a text nor nothing are kept beside the registry (`Strays`), under
the key of the node that has them; what the node itself has there counts no more.

**Evaluation** goes on with such nodes. A name is shown in messages; nothing refers to it in an
expression, and to count the names of children fails where it is a list or an object. Equal names
of any type are ambiguous. An expression counts as none where it is zero, false or empty, and is
read in vain otherwise (`FormulaGraph.Expr.Items`). An evaluation that is broken off keeps the
values that it has found.

**Results.** `Astray.update` follows `Registry.update`, which is the same where all names and
expressions have their types.
-/
namespace FormulaGraph

variable {α : Type}

/-- What is given for the fields of a node, whatever it is. A field that is not given stays. -/
structure AnyChanges (α : Type) where
  name : Option (Json α)
  value : Option (Json α)
  expression : Option (Json α)
  children : Option (Json α)
  description : Option (Json α)
  unit : Option (Json α)
  /-- Names of given fields that no node has, or that cannot be changed. -/
  unknown : List Text

namespace Json

/-- What the value is as an expression, if it is a text or nothing. -/
def expression? : Json α → Option (Option Text)
  | .null => some none
  | .text s => some (some s)
  | _ => none

end Json

/-- What a node can have in the place of a name. -/
abbrev StrayName (α : Type) : Type := { v : Json α // v.text? = none }

/-- What a formula can have in the place of an expression. -/
abbrev StrayExpression (α : Type) : Type := { v : Json α // v.expression? = none }

/-- What nodes have in the place of a name or an expression, by their keys. -/
structure Strays (α : Type) where
  names : Text → Option (StrayName α)
  expressions : Text → Option (StrayExpression α)

namespace Json

/-- The value, unless it is a name. -/
def strayName? (v : Json α) : Option (StrayName α) :=
  if h : v.text? = none then some ⟨v, h⟩ else none

/-- The value, unless it is an expression. -/
def strayExpression? (v : Json α) : Option (StrayExpression α) :=
  if h : v.expression? = none then some ⟨v, h⟩ else none

end Json

namespace AnyChanges

def empty : AnyChanges α := ⟨none, none, none, none, none, none, []⟩

/-- Changes that have the types of a node. -/
def ofChanges (c : Changes α) : AnyChanges α where
  name := c.name.map .text
  value := c.value
  expression := c.expression.map .ofText?
  children := c.children
  description := c.description
  unit := c.unit
  unknown := c.unknown

/-- The part of the changes that has the types of a node. In the place of an expression that has not
stands the one that the node has. -/
def changes (a : AnyChanges α) (n : Node α) : Changes α where
  name := a.name.bind Json.text?
  value := a.value
  expression := a.expression.map fun v => v.expression?.getD n.expression?
  children := a.children
  description := a.description
  unit := a.unit
  unknown := a.unknown

end AnyChanges

/-- A registry, and what its nodes have in the place of names and expressions. -/
structure Astray (α : Type) where
  registry : Registry α
  strays : Strays α

/-- Why an update with values of any type was not carried through. -/
inductive UpdateFault where
  | rejected (why : Failure)
  | unusable (why : ArgumentError)
  | astray (why : TypeFault)
  deriving DecidableEq, Repr

def UpdateFault.ofError : UpdateError → UpdateFault
  | .rejected f => .rejected f
  | .unusable e => .unusable e

/-! ## Values in increasing order -/

namespace Json

def isNumber : Json α → Bool
  | .bool _ | .int _ | .real _ => true
  | _ => false

/-- Whether two values are in an order: two texts or two numbers. -/
def comparable : Json α → Json α → Bool
  | .text _, .text _ => true
  | v, w => v.isNumber && w.isNumber

variable [Scalar α]

/-- A whole number, as it compares with a number that is not whole. -/
def beside (x : α) (i : Int) : α := if Scalar.isFinite x then Scalar.ofInt i else Scalar.zero

/-- Whether a value is less than another one. -/
def precedes (v w : Json α) : Bool :=
  match v, w with
  | .text s, .text t => s.numbers.lex t.numbers
  | .real x, .real y => Scalar.lt x y
  | v, w =>
    match v.whole?, w.whole?, v, w with
    | some i, some j, _, _ => i < j
    | some i, none, _, .real y => Scalar.lt (beside y i) y
    | none, some j, .real x, _ => Scalar.lt x (beside x j)
    | _, _, _, _ => false

/-- The value that the next one is compared with first: the last one as long as the values rise or
fall, then the middle one of those that are in order. -/
def neighbour (v : Json α) (rest : List (Json α)) (inOrder : List (Json α)) : Json α :=
  let falls := (v :: rest).zipWith (fun v w => precedes w v) rest
  if falls.all id || !falls.any id then rest.getLastD v
  else inOrder.getD (inOrder.length / 2) v

/-- The values in increasing order. -/
def sorted : List (Json α) → Except TypeFault (List (Json α))
  | [] => .ok []
  | v :: rest =>
    let alike := rest.takeWhile (comparable v)
    let inOrder := (v :: alike).mergeSort fun v w => !precedes w v
    match rest.dropWhile (comparable v) with
    | [] => .ok inOrder
    | w :: _ => .error (.notOrdered w.kindName (neighbour v alike inOrder).kindName)

end Json

/-! ## Nodes astray -/

namespace Strays

def empty : Strays α := ⟨fun _ => none, fun _ => none⟩

/-- What the node under a key has for a name. -/
def name (s : Strays α) (key : Text) (n : Node α) : Json α :=
  match s.names key with
  | none => .text n.name
  | some v => v.1

/-- What the formula under a key has for an expression, being given the one of the node. -/
def expression (s : Strays α) (key : Text) (e : Option Text) : Json α :=
  match s.expressions key with
  | none => .ofText? e
  | some v => v.1

/-- What is astray when an update has assigned a name and an expression. -/
def assign (s : Strays α) (key : Text) (a : AnyChanges α) : Strays α where
  names := match a.name with
    | none => s.names
    | some v => fun k => if k = key then v.strayName? else s.names k
  expressions := match a.expression with
    | none => s.expressions
    | some v => fun k => if k = key then v.strayExpression? else s.expressions k

variable [Scalar α]

/-- The name of a node as messages show it. -/
def shownName (s : Strays α) (key : Text) (n : Node α) : Text :=
  match s.names key with
  | none => n.name
  | some v => v.1.shown

/-- The record of a node. -/
def record (s : Strays α) (key : Text) (n : Node α) : Except Text.EncodeFault (Json α) :=
  let name := match s.names key with
    | none => .ok n.nameField
    | some v => Node.annotationField .name v.1
  let body := match s.expressions key with
    | none => .ok n.bodyField
    | some v => Node.annotationField .expression v.1
  n.recordWith name body

/-! ## Evaluation -/

/-- An exception during an evaluation, and the values found before. -/
structure Break (α : Type) where
  fault : TypeFault
  notes : Registry.Notes α

/-- Names that several existing nodes among `children` share, in increasing order. To count them
each of them is looked up. -/
def sharedNames (nodes : OrderedMap Text (Node α)) (s : Strays α) (children : List Text) :
    Except TypeFault (List (Json α)) := do
  let names := children.eraseDups.filterMap fun c => (nodes.get? c).map (s.name c)
  names.forM Json.lookUp
  Json.sorted ((Json.distinct names).filter fun v => 1 < names.countP (Json.sameItem v))

/-- The failure of a formula whose children share names. -/
def ambiguous (shown : Text) (names : List (Json α)) : Failure :=
  match (Json.list names).texts? with
  | some names => .ambiguousChildren shown names
  | none => .ambiguousValues shown (names.map Json.shown)

/-- Evaluates one child by `step` and adds its value to the context. -/
def gather (nodes : OrderedMap Text (Node α)) (s : Strays α)
    (step : Text → Registry.Notes α → Except (Break α) (Outcome α × Registry.Notes α))
    (g : Registry.Gathered α) (child : Text) : Except (Break α) (Registry.Gathered α) :=
  match nodes.get? child with
  | none => .ok g
  | some n => do
    let (outcome, notes) ← step child g.notes
    let failure := match outcome with
      | .ok _ => none
      | .error f => some f
    let value := (notes.lookup child).getD n.cachedValue
    pure
      { failure := g.failure.or failure
        context := match s.names child with
          | none => g.context.set n.name value
          | some _ => g.context
        notes }

/-- Evaluates the node under `id`, reached by way of `path`. -/
def evaluateAlong (nodes : OrderedMap Text (Node α)) (s : Strays α) (path : List Text)
    (id : Text) (notes : Registry.Notes α) :
    Except (Break α) (Outcome α × Registry.Notes α) :=
  match _hget : nodes.get? id with
  | none => .ok (.error (.nodeNotFound id), notes)
  | some n =>
    if _hpath : id ∈ path then .ok (.error (.circular (s.shownName id n)), notes)
    else
      match n.body with
      | .factor v => .ok (.ok v, (id, v) :: notes)
      | .formula expression =>
        let source := s.expression id expression
        if !source.isGiven then .ok (.error (.noFormula (s.shownName id n)), notes)
        else
          match sharedNames nodes s n.children with
          | .error fault => .error ⟨fault, notes⟩
          | .ok [] => do
            let step child notes := evaluateAlong nodes s (id :: path) child notes
            let g ← n.children.foldlM (gather nodes s step) ⟨none, .empty, notes⟩
            match g.failure with
            | some f => pure (.error f, g.notes)
            | none =>
              match evaluateAny source g.context with
              | .error fault => throw ⟨fault, g.notes⟩
              | .ok (.ok v) => pure (.ok v, (id, v) :: g.notes)
              | .ok (.error e) => pure (.error (.expression e), g.notes)
          | .ok shared => .ok (.error (ambiguous (s.shownName id n) shared), notes)
termination_by unvisited nodes.keys path
decreasing_by exact unvisited_cons_lt (OrderedMap.mem_keys_of_get? _hget) _hpath

end Strays

namespace Astray

variable [Scalar α]

/-- The document of a registry; the first node without a record counts. -/
def document (s : Astray α) (exportDate : Text) : Except Text.EncodeFault (Json α) :=
  s.registry.documentWith s.strays.record exportDate

/-- Evaluates a node as if reached by way of the ids in `path`. -/
def evaluateVisiting (s : Astray α) (path : List Text) (id : Text) :
    Except TypeFault (Outcome α) × Astray α :=
  match s.strays.evaluateAlong s.registry.nodes path id [] with
  | .ok (outcome, notes) => (.ok outcome, ⟨s.registry.write notes, s.strays⟩)
  | .error stopped => (.error stopped.fault, ⟨s.registry.write stopped.notes, s.strays⟩)

/-- Evaluates a node and all that it depends on. -/
def evaluate (s : Astray α) (id : Text) : Except TypeFault (Outcome α) × Astray α :=
  s.evaluateVisiting [] id

/-- Evaluates nodes one after the other, up to the first exception. -/
def evaluateEach (s : Astray α) (evaluations : Evaluations α) :
    (ids : List Text) → Except TypeFault (Evaluations α) × Astray α
  | [] => (.ok evaluations, s)
  | id :: ids =>
    match s.evaluate id with
    | (.error why, s) => (.error why, s)
    | (.ok outcome, s) => s.evaluateEach (evaluations.insert id outcome) ids

end Astray

/-! ## Updates -/

/-- The node with all that an update assigns before it reads a value or children. -/
def Changes.assign (c : Changes α) (n : Node α) : Node α := c.applyExpression (c.applyMetadata n)

variable [Scalar α]

/-- Assigns what an update gives to a node, up to an argument that is of no use, and says which
nodes the update evaluates. -/
def Registry.assignChanges (r : Registry α) (id : Text) (n : Node α) (c : Changes α) :
    Except ArgumentError (List Text) × Registry α :=
  let r := r.modify id c.assign
  match n.kind with
  | .factor =>
    match c.value with
    | none => (.ok [], r)
    | some v =>
      match v.number with
      | .error e => (.error e, r)
      | .ok x =>
        (.ok r.roots, r.modify id fun n => { n with body := .factor x, computed := some x })
  | .formula =>
    match c.children with
    | none => (.ok (if c.expression.isSome then [id] else []), r)
    | some v =>
      match v.entries with
      | .error e => (.error e, r)
      | .ok listed => (.ok [id], r.relink id n listed)

namespace Astray

/-- Why changes do not fit the node under a key. -/
def rejection? (s : Astray α) (key : Text) (n : Node α) (a : AnyChanges α) : Option Failure :=
  (a.changes n).rejection? { n with name := s.strays.shownName key n }

/-- Changes fields of a node to values of any type. -/
def update (s : Astray α) (id : Text) (a : AnyChanges α) :
    Except UpdateFault (Evaluations α) × Astray α :=
  match s.registry.node? id with
  | none => (.error (.rejected (.nodeNotFound id)), s)
  | some n =>
    match s.rejection? id n a with
    | some f => (.error (.rejected f), s)
    | none =>
      let strays := s.strays.assign id a
      match s.registry.assignChanges id n (a.changes n) with
      | (.error e, r) => (.error (.unusable e), ⟨r, strays⟩)
      | (.ok ids, r) =>
        match (Astray.mk r strays).evaluateEach .empty ids with
        | (.error why, s) => (.error (.astray why), s)
        | (.ok evaluations, s) => (.ok evaluations, s)

end Astray

end FormulaGraph
