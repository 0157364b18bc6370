import FormulaGraph.Node.Draft
import FormulaGraph.Registry.Evaluate
/-!
# Editing a registry

Every edit keeps the recorded parents of the nodes in step with the lists of children, and evaluates
what it concerns: a new value of a factor evaluates every root, a new expression or new children the
formula itself, an annotation nothing.

**Results.** An edit gives its result beside the registry. An edit that is rejected gives its
`Failure`; one that is applied gives the evaluations it caused, which may fail without undoing it.
`update` can also end with an argument that is of no use; what it changed before that stays changed.
-/
namespace FormulaGraph

/-- The evaluations that an edit caused, or why it was rejected. -/
abbrev Edited (α : Type) := Except Failure (Evaluations α)

/-- Why an update was not carried through. -/
inductive UpdateError where
  | rejected (why : Failure)
  | unusable (why : ArgumentError)
  deriving DecidableEq, Repr

/-- New values for the fields of a node; a field that is not given stays. A name and an expression
have their types here; values of any type are taken in `FormulaGraph.Registry.Astray`. -/
structure Changes (α : Type) where
  name : Option Text
  value : Option (Json α)
  expression : Option (Option Text)
  children : Option (Json α)
  description : Option (Json α)
  unit : Option (Json α)
  /-- Names of given fields that no node has, or that cannot be changed. -/
  unknown : List Text

namespace Changes

variable {α : Type}

def empty : Changes α := ⟨none, none, none, none, none, none, []⟩

/-- The node with the changed name and annotations. -/
def applyMetadata (c : Changes α) (n : Node α) : Node α :=
  { n with
    name := c.name.getD n.name
    description := c.description.getD n.description
    unit := c.unit.getD n.unit }

/-- The node with the new expression, if there is one. -/
def applyExpression (c : Changes α) (n : Node α) : Node α :=
  match c.expression with
  | none => n
  | some e => { n with body := .formula e }

/-- Why the changes do not fit a node. -/
def rejection? [Scalar α] (c : Changes α) (n : Node α) : Option Failure :=
  if c.unknown ≠ [] then some (.unknownFields (Text.sorted c.unknown))
  else
    match n.kind with
    | .factor =>
      if c.expression.isSome then some (.factorExpression n.name)
      else if c.children.any Json.isGiven then some (.factorChildren n.name)
      else none
    | .formula => if c.value.isSome then some (.formulaValue n.name) else none

end Changes

namespace Registry

variable {α : Type}

/-! ## Roots and whole registries -/

def markRoot (r : Registry α) (id : Text) : Except Failure Unit × Registry α :=
  if !r.nodes.contains id then (.error (.nodeNotFound id), r)
  else if id ∈ r.roots then (.ok (), r)
  else (.ok (), { r with roots := r.roots ++ [id] })

/-- Takes one mention of an id from the roots. -/
def unmarkRoot (r : Registry α) (id : Text) : Registry α := { r with roots := r.roots.erase id }

/-- Puts other nodes and roots in the place of all there are, without any check. -/
def replace (_ : Registry α) (nodes : OrderedMap Text (Node α)) (roots : List Text) :
    Registry α := ⟨nodes, roots⟩

variable [Scalar α]

/-! ## Creation -/

/-- Stores a new node under its id, with links back from its children; a formula is evaluated. -/
def create (r : Registry α) (n : Node α) : Registry α :=
  let linked := n.children.foldl (fun r child => r.modify child (·.addParent n.id)) r
  let r : Registry α := { linked with nodes := linked.nodes.insert n.id n }
  match n.kind with
  | .factor => r
  | .formula => (r.evaluate n.id).2

def createFactor (r : Registry α) (id name : Text) (value : α)
    (description unit : Option Text) : Registry α :=
  r.create
    { id, name, body := .factor value, listed := [], parents := [], computed := some value,
      description := .ofText? description, unit := .ofText? unit }

/-- Creates a formula; later repetitions of a child are dropped, and a child need not exist. -/
def createFormula (r : Registry α) (id name expression : Text) (children : List Text)
    (description unit : Option Text) : Registry α :=
  r.create
    { id, name, body := .formula (some expression), listed := children.eraseDups.map .text,
      parents := [], computed := none, description := .ofText? description, unit := .ofText? unit }

/-! ## Links -/

/-- Evaluates one node and reports it. -/
def evaluateOnly (r : Registry α) (id : Text) : Edited α × Registry α :=
  let (outcome, r) := r.evaluate id
  (.ok (OrderedMap.empty.insert id outcome), r)

/-- Two nodes, or the first of the two ids that has none. -/
def both (r : Registry α) (parent child : Text) : Except Failure (Node α × Node α) :=
  match r.node? parent, r.node? child with
  | some p, some c => .ok (p, c)
  | none, _ => .error (.nodeNotFound parent)
  | some _, none => .error (.nodeNotFound child)

/-- Links a child under a formula; a link that exists is left as it is. -/
def addChild (r : Registry α) (parent child : Text) : Edited α × Registry α :=
  match r.both parent child with
  | .error e => (.error e, r)
  | .ok (p, _) =>
    if p.isFactor then (.error (.factorChildren p.name), r)
    else if child ∈ p.children then (.ok .empty, r)
    else
      ((r.modify parent (·.addChild child)).modify child (·.addParent parent)).evaluateOnly parent

/-- Takes one mention of a child from a node. -/
def unlink (r : Registry α) (parent child : Text) : Registry α :=
  (r.modify parent (·.dropChild child)).modify child (·.dropParent parent)

/-- Unlinks a child from a node. -/
def removeChild (r : Registry α) (parent child : Text) : Edited α × Registry α :=
  match r.both parent child with
  | .error e => (.error e, r)
  | .ok (p, c) =>
    if child ∉ p.children then (.error (.notAChild c.name p.name), r)
    else
      let r := r.unlink parent child
      if p.isFormula then r.evaluateOnly parent else (.ok .empty, r)

/-! ## Updates -/

/-- Gives a factor a value and evaluates every root. -/
def setValue (r : Registry α) (id : Text) (value : α) : Evaluations α × Registry α :=
  (r.modify id fun n => { n with body := .factor value, computed := some value }).evaluateRoots

/-- Gives a node another list of children, and these the links back. -/
def relink (r : Registry α) (key : Text) (n : Node α) (listed : List (Json α)) : Registry α :=
  let children := Json.textsAmong listed
  let dropped := n.children.eraseDups.filter (· ∉ children)
  let added := children.eraseDups.filter (· ∉ n.children)
  let r := dropped.foldl (fun r c => r.modify c (·.dropParent n.id)) r
  let r := added.foldl (fun r c => r.modify c (·.addParent n.id)) r
  r.modify key fun n => { n with listed }

/-- Updates a factor, its metadata being changed already. -/
def updateFactor (r : Registry α) (id : Text) (c : Changes α) :
    Except UpdateError (Evaluations α) × Registry α :=
  match c.value with
  | none => (.ok .empty, r)
  | some v =>
    match v.number with
    | .error e => (.error (.unusable e), r)
    | .ok x =>
      let (evaluations, r) := r.setValue id x
      (.ok evaluations, r)

/-- Updates a formula, its metadata being changed already. -/
def updateFormula (r : Registry α) (id : Text) (n : Node α) (c : Changes α) :
    Except UpdateError (Evaluations α) × Registry α :=
  let r := match c.expression with
    | none => r
    | some e => r.modify id fun n => { n with body := .formula e }
  let evaluated (r : Registry α) : Except UpdateError (Evaluations α) × Registry α :=
    let (outcome, r) := r.evaluate id
    (.ok (OrderedMap.empty.insert id outcome), r)
  match c.children with
  | none => if c.expression.isSome then evaluated r else (.ok .empty, r)
  | some v =>
    match v.entries with
    | .error e => (.error (.unusable e), r)
    | .ok listed => evaluated (r.relink id n listed)

/-- Changes fields of a node. -/
def update (r : Registry α) (id : Text) (c : Changes α) :
    Except UpdateError (Evaluations α) × Registry α :=
  match r.node? id with
  | none => (.error (.rejected (.nodeNotFound id)), r)
  | some n =>
    match c.rejection? n with
    | some f => (.error (.rejected f), r)
    | none =>
      let r := r.modify id c.applyMetadata
      match n.kind with
      | .factor => r.updateFactor id c
      | .formula => r.updateFormula id n c

/-! ## Deletion -/

/-- Unlinks a child from the given nodes, one after the other. -/
def removeFrom (r : Registry α) (parents : List Text) (child : Text) :
    Evaluations α × Registry α :=
  parents.foldl (fun (evaluations, r) parent =>
    match r.removeChild parent child with
    | (.ok more, r) => (evaluations.insertAll more, r)
    | (.error _, r) => (evaluations, r)) (.empty, r)

/-- Removes a node with all links to and from it; its former parents are evaluated. -/
def delete (r : Registry α) (id : Text) : Edited α × Registry α :=
  match r.node? id with
  | none => (.error (.nodeNotFound id), r)
  | some _ =>
    let parents := (r.nodes.entries.filter fun e => id ∈ e.2.children).map (·.1)
    let (evaluations, r) := r.removeFrom parents id
    let children := match r.node? id with
      | some n => n.children
      | none => []
    let r := children.foldl (fun r c => r.modify c (·.dropParent id)) r
    let r := r.unmarkRoot id
    (.ok (evaluations.erase id), { r with nodes := r.nodes.erase id })

end Registry

end FormulaGraph
