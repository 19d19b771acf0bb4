import Tacit.Number.Integer
import Tacit.Value

/-! Indexing: selecting cells along the leading axis, and picking elements by their positions. -/
namespace Tacit.Value

def expectIndex (value : Value) : Result Int := do
  Number.toInteger (← value.expectNumber "index with")

def cellData (source : Grid Value) (index : Value) : Result (List Value) := do
  let position ← Number.axisPosition (← index.expectIndex) source.length
  let size := Shape.size (source.shape.drop 1)
  return (source.data.drop (position * size)).take size

/-- The cells of `y` at the indices `x`, in the shape of `x`. -/
def select (x y : Value) : Result Value := do
  let source ← y.expectArray "select from"
  if source.rank = 0 then throw (.typeError .selectFromRankZero)
  let cellShape := source.shape.drop 1
  match x with
  | array indices =>
    let shape := indices.shape ++ cellShape
    let _ ← Shape.boundedSize shape
    let cells ← indices.data.mapM (cellData source)
    return array (← Grid.ofShape shape cells.flatten)
  | index =>
    let data ← cellData source index
    match cellShape, data with
    | [], [element] => return element
    | _, _ => return array (← Grid.ofShape cellShape data)

/-- The row-major offset of a position, one index for each axis. -/
def offset (start : Nat) : List Int → Shape → Result Nat
  | index :: indices, axis :: axes => do
    offset (start * axis + (← Number.axisPosition index axis)) indices axes
  | _, _ => .ok start

def elementAt (source : Grid Value) (position : List Int) : Result Value := do
  if position.length ≠ source.rank then
    throw (.shapeMismatch (.pickRank position.length source.rank))
  let place ← offset 0 position source.shape
  match source.data[place]? with
  | some element => return element
  | none => throw (.indexOutOfBounds place source.data.length)

mutual

/-- Picks by a number, by a vector of numbers, or, where an index holds arrays, by each of them. -/
def pickFrom (source : Grid Value) : Value → Result Value
  | array ⟨shape, data⟩ =>
    if data.any isArray then do return array ⟨shape, ← pickAll source data⟩
    else do elementAt source (← data.mapM expectIndex)
  | index => do elementAt source [← index.expectIndex]

def pickAll (source : Grid Value) : List Value → Result (List Value)
  | [] => return []
  | index :: indices => do
    let first ← pickFrom source index
    let others ← pickAll source indices
    return first :: others

end

def pick (x y : Value) : Result Value := do
  pickFrom (← y.expectArray "pick from") x

end Tacit.Value
