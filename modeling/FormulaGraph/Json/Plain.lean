import FormulaGraph.Json.Value
import FormulaGraph.Text.Utf8
/-!
# Plain values

What a record holds of a value of any kind. Nothing stands for a real number that is not finite.
Names of fields have to be such that a file can hold them (`Text.encode`); the first one from the
left that is not keeps the whole value out of a record. Texts that are values may be any.

**Results.** Texts in a list are plain as they are (`plainItems_map_text`).
-/
namespace FormulaGraph.Json

variable {α : Type} [Scalar α]

mutual

/-- The value as a record holds it. -/
def plain : Json α → Except Text.EncodeFault (Json α)
  | .real x => .ok (if Scalar.isFinite x then .real x else .null)
  | .list items => (plainItems items).map .list
  | .object fields => (plainFields fields).map .object
  | v => .ok v

def plainItems : List (Json α) → Except Text.EncodeFault (List (Json α))
  | [] => .ok []
  | v :: rest => do
    let first ← plain v
    let others ← plainItems rest
    pure (first :: others)

/-- Fields with plain values; a name is looked at before its value. -/
def plainFields : List (Text × Json α) → Except Text.EncodeFault (List (Text × Json α))
  | [] => .ok []
  | (name, v) :: rest => do
    let _ ← name.encode
    let first ← plain v
    let others ← plainFields rest
    pure ((name, first) :: others)

end

theorem plainItems_map_text (ts : List Text) :
    plainItems (ts.map .text : List (Json α)) = .ok (ts.map .text) := by
  induction ts with
  | nil => simp [plainItems]
  | cons t rest ih => simp [plainItems, plain, ih, bind, Except.bind, pure, Except.pure]

end FormulaGraph.Json
