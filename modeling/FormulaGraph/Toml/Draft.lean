import FormulaGraph.Toml.Fault
import FormulaGraph.Toml.Value
/-!
# A configuration file in the making

While a file is read its tables grow statement by statement, under rules that keep a table from
being defined twice. A table that has a header, or that a dotted key of an earlier section has
opened, cannot be opened by a header again; a value written in place, be it an array or a table,
cannot be changed afterwards. An array of tables is extended by each of its headers, and keys go on
in its last table.
-/
namespace FormulaGraph.Toml

variable {α : Type}

/-- The document so far. -/
structure Draft (α : Type) where
  root : Table α
  /-- Tables that no header may open any more. -/
  declared : List Key
  /-- Values written in place, closed with all that is in them. -/
  sealedKeys : List Key
  /-- Tables opened by dotted keys of the current section. -/
  pending : List Key

namespace Draft

def empty : Draft α := ⟨[], [], [], []⟩

def isDeclared (d : Draft α) (key : Key) : Bool := d.declared.contains key

def isSealed (d : Draft α) (key : Key) : Bool := d.sealedKeys.any (·.isPrefixOf key)

/-- Changes the table under a key; tables on the way are made, and arrays of tables are entered at
their end if `lists` allows it. -/
def changeAt (lists : Bool) (f : Table α → Except Fault (Table α)) :
    Key → Table α → Except Fault (Table α)
  | [], t => f t
  | part :: rest, t =>
    let put (v : Value α) : Table α := Value.setField part v t
    match Value.field? part t with
    | none => (changeAt lists f rest []).map fun inner => put (.table inner)
    | some (.table inner) => (changeAt lists f rest inner).map fun inner => put (.table inner)
    | some (.array items) =>
      match lists, items.getLast? with
      | true, some (.table last) => (changeAt lists f rest last).map fun last =>
          put (.array (items.dropLast ++ [.table last]))
      | _, _ => .error .overwritten
    | some _ => .error .overwritten

/-- Puts a value under a name that is not in use. -/
def addNew (taken : Fault) (name : Text) (v : Value α) (t : Table α) : Except Fault (Table α) :=
  if (Value.field? name t).isSome then .error taken else .ok (Value.setField name v t)

/-- Extends an array of tables by an empty one. -/
def extend (name : Text) (t : Table α) : Except Fault (Table α) :=
  match Value.field? name t with
  | none => .ok (Value.setField name (.array [.table []]) t)
  | some (.array items) => .ok (Value.setField name (.array (items ++ [.table []])) t)
  | some _ => .error .overwritten

/-- A section ends: what its dotted keys opened is closed to headers. -/
def endSection (d : Draft α) : Draft α :=
  { d with declared := d.pending ++ d.declared, pending := [] }

/-- A header of a table. -/
def openTable (d : Draft α) (key : Key) : Except Fault (Draft α) := do
  if d.isDeclared key || d.isSealed key then throw (.declaredTwice key)
  let root ← changeAt true .ok key d.root
  pure { d with root, declared := key :: d.declared }

/-- A header of a further table in an array. -/
def openItem (d : Draft α) (key : Key) : Except Fault (Draft α) := do
  if d.isSealed key then throw (.immutable key)
  let keep (k : Key) : Bool := !key.isPrefixOf k
  let root ← changeAt true (extend (key.getLastD "")) key.dropLast d.root
  pure { d with
    root, declared := key :: d.declared.filter keep, sealedKeys := d.sealedKeys.filter keep }

/-- The tables that a dotted key goes through, the outermost first. -/
def passages (header key : Key) : List Key :=
  (List.range key.length).filterMap fun i => if i = 0 then none else some (header ++ key.take i)

/-- Whether a value is closed once it is written. -/
def isContainer : Value α → Bool
  | .array _ | .table _ => true
  | _ => false

/-- A value under a key in the section of a header. -/
def addValue (d : Draft α) (header key : Key) (v : Value α) : Except Fault (Draft α) := do
  let through := passages header key
  match through.find? d.isDeclared with
  | some k => throw (.redefined k)
  | none => pure ()
  let parent := header ++ key.dropLast
  if d.isSealed parent then throw (.immutable parent)
  let root ← changeAt true (addNew .overwritten (key.getLastD "") v) parent d.root
  pure { d with
    root
    pending := through ++ d.pending
    sealedKeys := if isContainer v then (header ++ key) :: d.sealedKeys else d.sealedKeys }

/-- A value under a key of a table that is written in place; `closed` are its values that cannot be
changed any more. -/
def addInPlace (t : Table α) (closed : List Key) (key : Key) (v : Value α) :
    Except Fault (Table α) := do
  if closed.any (·.isPrefixOf key) then throw (.immutable key)
  let name := key.getLastD ""
  changeAt false (addNew (.duplicateKey name) name v) key.dropLast t

end Draft

end FormulaGraph.Toml
