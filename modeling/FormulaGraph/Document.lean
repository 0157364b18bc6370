import FormulaGraph.Json.Writer
import FormulaGraph.Registry.Edit
/-!
# Documents

A registry is saved as one object: the pairs of key and record in order, the roots, the time of the
export and the version of the format. There is no document where there is no record of a node.

**Import** puts the nodes and roots of a document in the place of everything a registry holds and
evaluates every root. A document of another shape, or with a record that is no node, changes
nothing; if the import is checked, neither does one that describes an inconsistent graph. The time
and the version are not read.
-/
namespace FormulaGraph

variable {α : Type}

def formatVersion : Text := "1.0"

namespace Registry

variable [Scalar α]

/-- The pair of a key and the record under it. -/
def pair (key : Text) (record : Except Text.EncodeFault (Json α)) :
    Except Text.EncodeFault (Json α) :=
  record.map fun record => .list [.text key, record]

/-- The document of a registry whose nodes have the given records; the first node without one
counts. -/
def documentWith (r : Registry α) (record : Text → Node α → Except Text.EncodeFault (Json α))
    (exportDate : Text) : Except Text.EncodeFault (Json α) := do
  let pairs ← r.nodes.entries.mapM fun e => pair e.1 (record e.1 e.2)
  pure (.object [
    ("nodes", .list pairs),
    ("rootNodeIds", .list (r.roots.map .text)),
    ("exportDate", .text exportDate),
    ("version", .text formatVersion)])

/-- The document of a registry. -/
def document (r : Registry α) (exportDate : Text) : Except Text.EncodeFault (Json α) :=
  r.documentWith (fun _ n => n.record) exportDate

end Registry

namespace Document

/-- The array of pairs of a document. -/
def pairs (doc : Json α) : Except FormatFault (List (Json α)) :=
  match doc.get? "nodes" with
  | some (.list items) => .ok items
  | _ => .error .noNodes

/-- The roots of a document. -/
def roots (doc : Json α) : Except FormatFault (List Text) :=
  match (doc.get? "rootNodeIds").bind Json.texts? with
  | some ids => .ok ids
  | none => .error .noRoots

variable [Scalar α]

/-- The key and node of the pair at an index. -/
def readPair (index : Nat) (pair : Json α) : Except FormatFault (Text × Node α) :=
  match pair with
  | .list [.text id, record] =>
    match Node.ofRecord record with
    | .ok n => .ok (id, n)
    | .error (.invalid issues) => .error (.invalidRecord index id issues.length)
    | .error (.unreportable e) => .error (.unreportable e)
  | _ => .error (.notAPair index)

/-- The pairs from an index on; the first fault from the left counts. -/
def readPairs (index : Nat) : List (Json α) → Except FormatFault (List (Text × Node α))
  | [] => .ok []
  | pair :: rest => do
    let entry ← readPair index pair
    let entries ← readPairs (index + 1) rest
    pure (entry :: entries)

/-- The nodes and roots of a document; of two nodes under one key the later counts. -/
def read (doc : Json α) : Except FormatFault (Registry α) := do
  match doc with
  | .object _ =>
    let items ← pairs doc
    let roots ← roots doc
    let entries ← readPairs 0 items
    pure ⟨.ofList entries, roots⟩
  | _ => throw .notAnObject

end Document

/-- Why a text was not imported. -/
inductive LoadError where
  | rejected (why : Failure)
  | numberTooLong (digits : Nat)
  | notUtf8
  deriving DecidableEq, Repr

namespace Registry

variable [Scalar α]

/-- Everything that makes a registry inconsistent. -/
def violations (r : Registry α) : List Links.Violation := Links.violations r.nodes r.roots

/-- Takes over a document. -/
def importDocument (r : Registry α) (doc : Json α) (check : Bool) :
    Except Failure Unit × Registry α :=
  match Document.read doc with
  | .error f => (.error (.badFormat f), r)
  | .ok imported =>
    if check ∧ imported.violations ≠ [] then (.error (.inconsistent imported.violations), r)
    else (.ok (), (r.replace imported.nodes imported.roots).evaluateRoots.2)

/-- Takes over the document that a text is. -/
def loadText (r : Registry α) (text : Text) (check : Bool) :
    Except LoadError Unit × Registry α :=
  match Json.read text with
  | .error (.fault f offset) => (.error (.rejected (.unreadable f text offset)), r)
  | .error (.numberTooLong digits) => (.error (.numberTooLong digits), r)
  | .ok doc =>
    match r.importDocument doc check with
    | (.ok (), r) => (.ok (), r)
    | (.error f, r) => (.error (.rejected f), r)

/-- Ends every line by a newline alone. -/
def plainLines : List Char → List Char
  | '\r' :: '\n' :: rest => '\n' :: plainLines rest
  | '\r' :: rest => '\n' :: plainLines rest
  | c :: rest => c :: plainLines rest
  | [] => []

/-- Takes over the document in a file. -/
def loadBytes (r : Registry α) (bytes : ByteArray) (check : Bool) :
    Except LoadError Unit × Registry α :=
  match String.fromUTF8? bytes with
  | none => (.error .notUtf8, r)
  | some s => r.loadText (.ofChars (plainLines s.toList)) check

/-- The text of the document. -/
def documentText (r : Registry Float) (exportDate : Text) (indent : Nat) :
    Except Text.EncodeFault String :=
  (r.document exportDate).map fun doc => doc.toText (some indent)

/-- The contents of a saved file. -/
def fileText (r : Registry Float) (exportDate : Text) : Except Text.EncodeFault String :=
  (r.documentText exportDate 2).map (· ++ "\n")

end Registry

end FormulaGraph
